import CausalRules.Proofs.Grammar.WellFormed
import CausalRules.Proofs.Imitation.Grouping
import CausalRules.Proofs.Imitation.Names
import CausalRules.Proofs.Rule

/-!
# When rules share a signature

The signature of a method is found in two passes over the rules of its intention: one finds where the
continuations begin, which any of the rules may say, and one counts the parameters of each rule. That
they find a signature is a property of the set of rules, whichever comes first; the first rule only
gives the names.

- `Rule.offset?`, `Rule.start?`: the offset of the continuation that ends an intention, and the
  parameter at which it begins.
- `Rule.Parametric`: an intention of different variables, with at most a continuation after them.
- `AgreeOnCount`, `AgreeOnStart`: the two ways in which rules agree.
- `paramsOf_eq_ok_iff`, `commonStart_eq_ok_iff`, `checkCounts_eq_ok_iff`: what one rule has to be, and
  what the passes find out.
- `ofRules_eq_ok_iff_agree`: there is a signature exactly when the rules agree, and which it is.
-/

namespace CausalRules

open Script (identifier)

/-- The offset of the continuation that ends an intention. -/
def Rule.offset? (rule : Rule) : Option Nat :=
  rule.intention.args.getLast?.bind Arg.continuation?

/-- The parameter at which the continuation of an intention begins, counted from 0. -/
def Rule.start? (rule : Rule) : Option Nat :=
  rule.offset?.map (rule.variables.length - ·)

/-- The arguments of an intention are variables, all different, and then at most a continuation. -/
structure Rule.Parametric (rule : Rule) : Prop where
  args : rule.intention.args =
    rule.variables.map .variable ++ (rule.offset?.map .continuation).toList
  nodup : rule.variables.Nodup

namespace Imitation

/-! ## The parameters of a rule -/

/-- What variables and a continuation after them give. -/
theorem ofArgs?_variables (names : List String) (offset : Option Nat) :
    Params.ofArgs? (names.map .variable ++ (offset.map .continuation).toList) =
      some ⟨names, offset⟩ := by
  induction names with
  | nil => cases offset <;> rfl
  | cons name rest ih =>
    rw [List.map_cons, List.cons_append, Params.ofArgs?, ih]
    rfl

/-- Where a continuation is the last of the arguments, they are read off the parameters. -/
theorem args_eq_of_ofArgs? {args : List Arg} {params : Params}
    (hlast : ∀ i offset, args[i]? = some (.continuation offset) → i + 1 = args.length)
    (h : Params.ofArgs? args = some params) :
    args = params.names.map .variable ++ (params.continuation.map .continuation).toList := by
  fun_induction Params.ofArgs? args generalizing params with
  | case1 =>
    obtain rfl := Option.some.inj h
    rfl
  | case2 name rest ih =>
    obtain ⟨params', hrest, h⟩ := Option.bind_eq_some_iff.mp h
    obtain rfl := Option.some.inj h
    show .variable name :: rest = .variable name :: _
    congr 1
    exact ih (fun i offset hi => Nat.succ.inj (hlast (i + 1) offset hi)) hrest
  | case3 offset rest =>
    -- nothing follows the continuation
    obtain rfl : rest = [] :=
      List.length_eq_zero_iff.mp (Nat.succ.inj (hlast 0 offset rfl)).symm
    obtain rfl := Option.some.inj h
    rfl
  | case4 => cases h

theorem offset?_of_args {rule : Rule} {names : List String} {offset : Option Nat}
    (h : rule.intention.args = names.map .variable ++ (offset.map .continuation).toList) :
    rule.variables = names ∧ rule.offset? = offset := by
  have hnames : (names.map Arg.variable).filterMap Arg.variableName? = names := by
    rw [List.filterMap_map]
    exact List.filterMap_some
  rw [Rule.variables, Rule.offset?, h]
  cases offset with
  | none =>
    refine ⟨by simpa using hnames, ?_⟩
    show (names.map Arg.variable ++ []).getLast?.bind Arg.continuation? = none
    rw [List.append_nil, List.getLast?_map]
    cases names.getLast? <;> rfl
  | some offset =>
    refine ⟨?_, by simp [Arg.continuation?]⟩
    rw [List.filterMap_append, hnames]
    exact List.append_nil names

variable {rule : Rule} {rules : List Rule}

/-- A rule has parameters exactly when its intention has different variables, with at most a
continuation after them. -/
theorem paramsOf_eq_ok_iff (hplaced : ContinuationsPlaced rule.intention.args) {params : Params} :
    paramsOf rule = .ok params ↔ rule.Parametric ∧ params = ⟨rule.variables, rule.offset?⟩ := by
  constructor
  · intro h
    have hofArgs := ofArgs?_of_paramsOf h
    have hargs := args_eq_of_ofArgs? (fun i offset hi => (hplaced i offset hi).1) hofArgs
    obtain ⟨hvariables, hoffset⟩ := offset?_of_args hargs
    refine ⟨⟨?_, nodup_of_paramsOf h⟩, ?_⟩
    · rw [hvariables, hoffset]
      exact hargs
    · rw [hvariables, hoffset]
  · rintro ⟨⟨hargs, hnodup⟩, rfl⟩
    have hofArgs : Params.ofArgs? rule.intention.args = some ⟨rule.variables, rule.offset?⟩ := by
      rw [hargs]
      exact ofArgs?_variables _ _
    have hrepeat : firstRepeat? [] rule.variables = none :=
      firstRepeat?_eq_none_iff.mpr ⟨hnodup, fun _ _ => List.not_mem_nil⟩
    rw [paramsOf, hofArgs]
    dsimp only
    rw [hrepeat]

/-- A rule that is to have parameters and then something more. -/
theorem bind_paramsOf_eq_ok_iff {β : Type} (hplaced : ContinuationsPlaced rule.intention.args)
    {f : Params → Except EmitError β} {b : β} :
    paramsOf rule >>= f = .ok b ↔ rule.Parametric ∧ f ⟨rule.variables, rule.offset?⟩ = .ok b := by
  rw [bind_eq_ok]
  constructor
  · rintro ⟨params, hparams, hf⟩
    obtain ⟨hrule, rfl⟩ := (paramsOf_eq_ok_iff hplaced).mp hparams
    exact ⟨hrule, hf⟩
  · rintro ⟨hrule, hf⟩
    exact ⟨_, (paramsOf_eq_ok_iff hplaced).mpr ⟨hrule, rfl⟩, hf⟩

/-- A continuation reaches back over variables only. -/
theorem offset_le_of_parametric (h : rule.Parametric)
    (hplaced : ContinuationsPlaced rule.intention.args) {offset : Nat}
    (hoffset : rule.offset? = some offset) : offset ≤ rule.variables.length := by
  have hat : rule.intention.args[rule.variables.length]? = some (.continuation offset) := by
    rw [h.args, hoffset, List.getElem?_append_right (by simp)]
    simp
  exact (hplaced _ _ hat).2

/-! ## The two passes -/

section Passes

variable (hplaced : ∀ rule ∈ rules, ContinuationsPlaced rule.intention.args)

include hplaced

/-- **The first pass** finds the only parameter at which continuations begin, if there is any. -/
theorem commonStart_eq_ok_iff {earlier start : Option Nat} :
    commonStart earlier rules = .ok start ↔
      (∀ rule ∈ rules, rule.Parametric) ∧
      ∀ k, start = some k ↔ earlier = some k ∨ ∃ rule ∈ rules, rule.start? = some k := by
  -- the induction is on the rules; what the earlier ones said is one more place to begin at
  induction rules generalizing earlier with
  | nil =>
    simp only [commonStart, List.not_mem_nil, false_and, exists_false, or_false, false_implies,
      implies_true, true_and]
    constructor
    · intro h k
      rw [Except.ok.inj h]
    · intro h
      exact congrArg _ (Option.ext fun k => (h k).symm)
  | cons rule rest ih =>
    obtain ⟨hrule, hrest⟩ := List.forall_mem_cons.mp hplaced
    rw [commonStart, bind_paramsOf_eq_ok_iff hrule, List.forall_mem_cons, and_assoc]
    refine and_congr_right fun _ => ?_
    simp only [List.exists_mem_cons_iff]
    have hstart : rule.start? = rule.offset?.map (rule.variables.length - ·) := rfl
    cases hoffset : rule.offset? with
    | none =>
      rw [hoffset] at hstart
      simp only [hstart, Option.map_none, reduceCtorEq, false_or]
      exact ih hrest
    | some offset =>
      rw [hoffset, Option.map_some] at hstart
      simp only [hstart]
      cases earlier with
      | none =>
        simp only [reduceCtorEq, false_or]
        exact ih hrest
      | some k =>
        dsimp only
        by_cases hk : rule.variables.length - offset = k
        · rw [if_pos hk, hk]
          simp only [or_self_left]
          exact ih hrest
        · -- two rules begin at different parameters, which cannot both be the one
          rw [if_neg hk]
          constructor
          · intro h
            cases h
          · rintro ⟨-, h⟩
            have hfirst := (h k).mpr (.inl rfl)
            have hsecond := (h _).mpr (.inr (.inl rfl))
            exact absurd (Option.some.inj (hsecond.symm.trans hfirst)) hk

/-- **The second pass** counts the variables of every rule. -/
theorem checkCounts_eq_ok_iff {fits : Nat → Bool} {reason : Nat → Disagreement} :
    checkCounts fits reason rules = .ok () ↔
      (∀ rule ∈ rules, rule.Parametric) ∧ ∀ rule ∈ rules, fits rule.variables.length = true := by
  induction rules with
  | nil => simp [checkCounts]
  | cons rule rest ih =>
    obtain ⟨hrule, hrest⟩ := List.forall_mem_cons.mp hplaced
    rw [checkCounts, bind_paramsOf_eq_ok_iff hrule, List.forall_mem_cons, List.forall_mem_cons]
    dsimp only
    by_cases hfits : fits rule.variables.length = true
    · rw [if_pos hfits, ih hrest]
      simp only [hfits, true_and]
      exact and_assoc.symm
    · rw [if_neg hfits]
      constructor
      · rintro ⟨-, h⟩
        cases h
      · rintro ⟨-, h, -⟩
        exact absurd h hfits

end Passes

/-! ## Agreement -/

/-- No rule has a continuation, and all have as many variables. -/
def AgreeOnCount (rules : List Rule) (count : Nat) : Prop :=
  ∀ rule ∈ rules, rule.offset? = none ∧ rule.variables.length = count

/-- Some rule has a continuation. Those that have one begin it at parameter `k`, counted from 0, and
every rule has that parameter. -/
structure AgreeOnStart (rules : List Rule) (k : Nat) : Prop where
  continued : ∃ rule ∈ rules, rule.offset? ≠ none
  begins : ∀ rule ∈ rules, ∀ offset, rule.offset? = some offset →
    rule.variables.length = k + offset
  reaches : ∀ rule ∈ rules, k + 1 ≤ rule.variables.length

/-- Rules agree on one parameter only. -/
theorem AgreeOnStart.unique {k j : Nat} (hk : AgreeOnStart rules k) (hj : AgreeOnStart rules j) :
    k = j := by
  obtain ⟨rule, hrule, hne⟩ := hk.continued
  obtain ⟨offset, hoffset⟩ := Option.ne_none_iff_exists'.mp hne
  have hfirst := hk.begins rule hrule offset hoffset
  have hsecond := hj.begins rule hrule offset hoffset
  omega

section Agreement

variable {first : Rule} {rest : List Rule} {signature : Signature}
  (hplaced : ∀ rule ∈ first :: rest, ContinuationsPlaced rule.intention.args)

include hplaced

/-- A continuation begins after as many variables as it leaves to itself. -/
theorem start?_eq_some_iff (hparametric : ∀ rule ∈ first :: rest, rule.Parametric) {rule : Rule}
    (hrule : rule ∈ first :: rest) {k : Nat} : rule.start? = some k ↔
      ∃ offset, rule.offset? = some offset ∧ rule.variables.length = k + offset := by
  rw [Rule.start?, Option.map_eq_some_iff]
  refine exists_congr fun offset => and_congr_right fun hoffset => ?_
  have hle := offset_le_of_parametric (hparametric rule hrule) (hplaced rule hrule) hoffset
  omega

/-- The passes find no beginning when no rule has a continuation. -/
theorem commonStart_eq_none_iff : commonStart none (first :: rest) = .ok none ↔
    (∀ rule ∈ first :: rest, rule.Parametric) ∧ ∀ rule ∈ first :: rest, rule.offset? = none := by
  rw [commonStart_eq_ok_iff hplaced]
  refine and_congr_right fun _ => ?_
  simp only [reduceCtorEq, false_or, false_iff, not_exists, not_and, Rule.start?]
  constructor
  · intro h rule hrule
    cases hoffset : rule.offset? with
    | none => rfl
    | some offset =>
      have hstart := h (rule.variables.length - offset) rule hrule
      rw [hoffset] at hstart
      exact absurd rfl hstart
  · intro h k rule hrule
    rw [h rule hrule]
    nofun

/-- They find a beginning when some rule has a continuation, and all that have one agree on it. -/
theorem commonStart_eq_some_iff {k : Nat} : commonStart none (first :: rest) = .ok (some k) ↔
    (∀ rule ∈ first :: rest, rule.Parametric) ∧ (∃ rule ∈ first :: rest, rule.offset? ≠ none) ∧
      ∀ rule ∈ first :: rest, ∀ offset, rule.offset? = some offset →
        rule.variables.length = k + offset := by
  rw [commonStart_eq_ok_iff hplaced]
  refine and_congr_right fun hparametric => ?_
  simp only [Option.some.injEq, reduceCtorEq, false_or]
  constructor
  · intro h
    obtain ⟨rule, hrule, hstart⟩ := (h k).mp rfl
    obtain ⟨offset, hoffset, -⟩ :=
      (start?_eq_some_iff hplaced hparametric hrule).mp hstart
    refine ⟨⟨rule, hrule, by rw [hoffset]; exact Option.some_ne_none _⟩, ?_⟩
    intro other hother offset' hoffset'
    have hle := offset_le_of_parametric (hparametric other hother) (hplaced other hother) hoffset'
    -- the other rule begins its continuation somewhere, which is then at `k` as well
    have hbegins : other.start? = some (other.variables.length - offset') := by
      rw [Rule.start?, hoffset']
      rfl
    have hk : k = other.variables.length - offset' := (h _).mpr ⟨other, hother, hbegins⟩
    omega
  · rintro ⟨⟨rule, hrule, hne⟩, hbegins⟩ j
    obtain ⟨offset, hoffset⟩ := Option.ne_none_iff_exists'.mp hne
    constructor
    · rintro rfl
      exact ⟨rule, hrule, (start?_eq_some_iff hplaced hparametric hrule).mpr
        ⟨offset, hoffset, hbegins rule hrule offset hoffset⟩⟩
    · rintro ⟨other, hother, hstart⟩
      obtain ⟨offset', hoffset', hlength⟩ :=
        (start?_eq_some_iff hplaced hparametric hother).mp hstart
      have := hbegins other hother offset' hoffset'
      omega

/-- What both passes come to. -/
theorem ofRules_eq_ok_iff : Signature.ofRules (first :: rest) = .ok signature ↔
    (∀ rule ∈ first :: rest, rule.Parametric) ∧
    (AgreeOnCount (first :: rest) first.variables.length ∧
        signature = ⟨first.variables.map identifier, none⟩ ∨
      ∃ k, AgreeOnStart (first :: rest) k ∧
        signature = ⟨(first.variables.take k).map identifier,
          (first.variables[k]?).map identifier⟩) := by
  have hnames : ∀ {names : List String}, Params.names <$> paramsOf first = .ok names ↔
      first.Parametric ∧ names = first.variables := by
    intro names
    rw [map_eq_ok]
    constructor
    · rintro ⟨params, hparams, rfl⟩
      obtain ⟨hfirst, rfl⟩ := (paramsOf_eq_ok_iff (hplaced first List.mem_cons_self)).mp hparams
      exact ⟨hfirst, rfl⟩
    · rintro ⟨hfirst, rfl⟩
      exact ⟨_, (paramsOf_eq_ok_iff (hplaced first List.mem_cons_self)).mpr ⟨hfirst, rfl⟩, rfl⟩
  constructor
  · intro h
    obtain ⟨start, hstart, h⟩ := bind_eq_ok.mp h
    obtain ⟨names, hfirst, h⟩ := bind_eq_ok.mp h
    obtain ⟨-, rfl⟩ := hnames.mp hfirst
    cases start with
    | none =>
      obtain ⟨⟨⟩, hcounts, h⟩ := bind_eq_ok.mp h
      obtain rfl := pure_eq_ok.mp h
      obtain ⟨hparametric, hoffsets⟩ := (commonStart_eq_none_iff hplaced).mp hstart
      have hcounts := ((checkCounts_eq_ok_iff hplaced).mp hcounts).2
      exact ⟨hparametric, .inl ⟨fun rule hrule => ⟨hoffsets rule hrule,
        of_decide_eq_true (hcounts rule hrule)⟩, rfl⟩⟩
    | some k =>
      obtain ⟨⟨⟩, hcounts, h⟩ := bind_eq_ok.mp h
      obtain rfl := pure_eq_ok.mp h
      obtain ⟨hparametric, hcontinued, hbegins⟩ := (commonStart_eq_some_iff hplaced).mp hstart
      have hcounts := ((checkCounts_eq_ok_iff hplaced).mp hcounts).2
      exact ⟨hparametric, .inr ⟨k, ⟨hcontinued, hbegins,
        fun rule hrule => of_decide_eq_true (hcounts rule hrule)⟩, rfl⟩⟩
  · rintro ⟨hparametric, ⟨hagree, rfl⟩ | ⟨k, hagree, rfl⟩⟩
    · have hstart := (commonStart_eq_none_iff hplaced).mpr
        ⟨hparametric, fun rule hrule => (hagree rule hrule).1⟩
      refine bind_eq_ok.mpr ⟨none, hstart, bind_eq_ok.mpr
        ⟨_, hnames.mpr ⟨hparametric first List.mem_cons_self, rfl⟩, bind_eq_ok.mpr ⟨(), ?_, rfl⟩⟩⟩
      exact (checkCounts_eq_ok_iff hplaced).mpr
        ⟨hparametric, fun rule hrule => decide_eq_true (hagree rule hrule).2⟩
    · have hstart := (commonStart_eq_some_iff hplaced).mpr
        ⟨hparametric, hagree.continued, hagree.begins⟩
      refine bind_eq_ok.mpr ⟨some k, hstart, bind_eq_ok.mpr
        ⟨_, hnames.mpr ⟨hparametric first List.mem_cons_self, rfl⟩, bind_eq_ok.mpr ⟨(), ?_, rfl⟩⟩⟩
      exact (checkCounts_eq_ok_iff hplaced).mpr
        ⟨hparametric, fun rule hrule => decide_eq_true (hagree.reaches rule hrule)⟩

end Agreement

/-! ## The rules of a program -/

/-- **Rules have a signature exactly when they agree.** In every rule of an intention the arguments
are different variables, with at most a continuation after them. Either no rule has a continuation
and all have as many variables; then these are the parameters, with the names of the first rule. Or
some rule has one, and all that have one begin it at the same parameter, which every rule has; then
the parameters before it are those of the first rule, and its name there is the star parameter,
whichever rules have the continuation. -/
theorem ofRules_eq_ok_iff_agree {limits : Limits} {text : String} {program : Program}
    (hread : Program.read limits text = .ok program) {name : String}
    (hname : name ∈ intentionNames program.rules) :
    ∃ first rest, rulesOf program.rules name = first :: rest ∧
      ((∃ signature, Signature.ofRules (first :: rest) = .ok signature) ↔
        (∀ rule ∈ first :: rest, rule.Parametric) ∧
        ((∃ count, AgreeOnCount (first :: rest) count) ∨ ∃ k, AgreeOnStart (first :: rest) k)) ∧
      ∀ signature, Signature.ofRules (first :: rest) = .ok signature →
        (∀ count, AgreeOnCount (first :: rest) count →
          signature = ⟨first.variables.map identifier, none⟩) ∧
        ∀ k, AgreeOnStart (first :: rest) k → ∃ star, first.variables[k]? = some star ∧
          signature = ⟨(first.variables.take k).map identifier, some (identifier star)⟩ ∧
          signature.fixed.length = k := by
  obtain ⟨first, rest, hrules, -⟩ := exists_rulesOf_eq_cons hname
  have hplaced : ∀ rule ∈ first :: rest, ContinuationsPlaced rule.intention.args := by
    intro rule hrule
    rw [← hrules] at hrule
    have hwell := (Program.wellFormed_of_read hread).rules rule (mem_of_mem_rulesOf hrule)
    exact hwell.intention.args.placed
  refine ⟨first, rest, hrules, ?_, fun signature h => ⟨fun count hcount => ?_, fun k hk => ?_⟩⟩
  · simp only [ofRules_eq_ok_iff hplaced]
    constructor
    · rintro ⟨signature, hparametric, ⟨hcount, -⟩ | ⟨k, hk, -⟩⟩
      · exact ⟨hparametric, .inl ⟨_, hcount⟩⟩
      · exact ⟨hparametric, .inr ⟨k, hk⟩⟩
    · rintro ⟨hparametric, ⟨count, hcount⟩ | ⟨k, hk⟩⟩
      · obtain rfl := (hcount first List.mem_cons_self).2
        exact ⟨_, hparametric, .inl ⟨hcount, rfl⟩⟩
      · exact ⟨_, hparametric, .inr ⟨k, hk, rfl⟩⟩
  · rcases ((ofRules_eq_ok_iff hplaced).mp h).2 with ⟨-, rfl⟩ | ⟨k, hk, -⟩
    · rfl
    · obtain ⟨rule, hrule, hoffset⟩ := hk.continued
      exact absurd (hcount rule hrule).1 hoffset
  · rcases ((ofRules_eq_ok_iff hplaced).mp h).2 with ⟨hcount, -⟩ | ⟨j, hj, rfl⟩
    · obtain ⟨rule, hrule, hoffset⟩ := hk.continued
      exact absurd (hcount rule hrule).1 hoffset
    · obtain rfl := hk.unique hj
      have hlt : k < first.variables.length := hk.reaches first List.mem_cons_self
      refine ⟨_, List.getElem?_eq_getElem hlt, ?_, ?_⟩
      · rw [List.getElem?_eq_getElem hlt]
        rfl
      · rw [List.length_map, List.length_take]
        omega

/-- Three rules for one intention. The second and the third have continuations that reach back to the
same parameter, by offsets of their own. -/
def heapingText : String :=
  "RULES \x7b heap(a, b) := put(b); heap(c, d, CONT) := heap(d, CONT); " ++
    "heap(e, f, g, CONT2) := put(e) \x7d"

/-- The rules of `heapingText`. -/
def heaping : List Rule := [{
  condition := none
  intention := ⟨"heap", [.variable "a", .variable "b"], 8⟩
  effects := [⟨"put", [.variable "b"], 22⟩]
  position := 8 }, {
  condition := none
  intention := ⟨"heap", [.variable "c", .variable "d", .continuation 1], 30⟩
  effects := [⟨"heap", [.variable "d", .continuation 1], 50⟩]
  position := 30 }, {
  condition := none
  intention := ⟨"heap", [.variable "e", .variable "f", .variable "g", .continuation 2], 65⟩
  effects := [⟨"put", [.variable "e"], 89⟩]
  position := 65 }]

theorem read_heapingText : Program.read ⟨200, 0⟩ heapingText = .ok ⟨heaping⟩ := by
  decide +kernel

/-- The rules agree, so they have a signature, with the names of the rule without a continuation. -/
theorem heaping_signature : AgreeOnStart heaping 1 ∧
    Signature.ofRules heaping = .ok ⟨["a"], some "b"⟩ := by
  have hparametric : ∀ rule ∈ heaping, rule.Parametric := by
    simp only [heaping, List.forall_mem_cons]
    exact ⟨⟨rfl, by decide⟩, ⟨rfl, by decide⟩, ⟨rfl, by decide⟩, List.forall_mem_nil _⟩
  have hagree : AgreeOnStart heaping 1 := by
    refine ⟨⟨_, List.mem_of_getElem? (i := 1) rfl, Option.some_ne_none 1⟩, ?_, ?_⟩
    · simp only [heaping, List.forall_mem_cons]
      refine ⟨nofun, ?_, ?_, List.forall_mem_nil _⟩
      · rintro _ ⟨⟩
        rfl
      · rintro _ ⟨⟩
        rfl
    · simp only [heaping, List.forall_mem_cons]
      exact ⟨by decide, by decide, by decide, List.forall_mem_nil _⟩
  have hname : "heap" ∈ intentionNames (Program.mk heaping).rules := by decide
  obtain ⟨first, rest, hrules, haccepted, hsignature⟩ :=
    ofRules_eq_ok_iff_agree read_heapingText hname
  obtain ⟨rfl, rfl⟩ := List.cons.inj hrules
  obtain ⟨signature, h⟩ := haccepted.mpr ⟨hparametric, .inr ⟨1, hagree⟩⟩
  obtain ⟨star, hstar, rfl, -⟩ := (hsignature signature h).2 1 hagree
  obtain rfl := Option.some.inj hstar
  exact ⟨hagree, h⟩

end Imitation

end CausalRules
