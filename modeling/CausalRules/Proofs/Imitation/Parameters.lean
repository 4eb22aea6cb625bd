import CausalRules.Proofs.Imitation.Run
import CausalRules.Proofs.Traversal

/-!
# Parameters and the variables of a rule

The parameters of a method are named by the first rule of its intention, and the other rules name
their variables as they like. What matters is the place of a variable in its intention.

- `Rule.variables`: the variables of an intention, in order.
- `Signature.Accepts`: a method may be called with a number of arguments.
- `accepts_of_ofRules`: the variables of each rule are as many as its method accepts.
- `value?_of_binding`: the parameter at the place of a variable holds the argument at that place.
- `star_of_ofRules`: without continuations there is no star parameter.
-/

namespace CausalRules

/-- The variables of an intention, in order. -/
def Rule.variables (rule : Rule) : List String :=
  rule.intention.args.filterMap Arg.variableName?

namespace Imitation

variable {V : Type} {m : Interpretation V} {frame : Frame V} {signature : Signature}
  {rules : List Rule}

/-! ## Parameters -/

/-- The parameters that arguments name are their variables. -/
theorem names_of_ofArgs? {args : List Arg} {params : Params}
    (h : Params.ofArgs? args = some params) :
    params.names = args.filterMap Arg.variableName? := by
  fun_induction Params.ofArgs? args generalizing params with
  | case1 =>
    obtain rfl := Option.some.inj h
    rfl
  | case2 name rest ih =>
    obtain ⟨params', hrest, h⟩ := Option.bind_eq_some_iff.mp h
    obtain rfl := Option.some.inj h
    show name :: params'.names = name :: rest.filterMap Arg.variableName?
    rw [ih hrest]
  | case3 offset rest ih =>
    obtain ⟨params', hrest, h⟩ := Option.bind_eq_some_iff.mp h
    have hnames := ih hrest
    obtain rfl := Option.some.inj h
    exact hnames
  | case4 => cases h

/-- Without a continuation among the arguments there is none among the parameters. -/
theorem continuation_of_ofArgs? {args : List Arg} {params : Params}
    (h : Params.ofArgs? args = some params) (hargs : ∀ arg ∈ args, arg.continuation? = none) :
    params.continuation = none := by
  fun_induction Params.ofArgs? args generalizing params with
  | case1 =>
    obtain rfl := Option.some.inj h
    rfl
  | case2 name rest ih =>
    obtain ⟨params', hrest, h⟩ := Option.bind_eq_some_iff.mp h
    have hnone := ih hrest fun arg harg => hargs arg (List.mem_cons_of_mem _ harg)
    obtain rfl := Option.some.inj h
    exact hnone
  | case3 offset rest => cases hargs _ (List.mem_cons_self ..)
  | case4 => cases h

/-- The parameters of a rule are read off its intention. -/
theorem ofArgs?_of_paramsOf {rule : Rule} {params : Params} (h : paramsOf rule = .ok params) :
    Params.ofArgs? rule.intention.args = some params := by
  unfold paramsOf at h
  split at h
  · cases h
  · rename_i found hfound
    split at h
    · cases h
    · rw [hfound, Except.ok.inj h]

theorem names_of_paramsOf {rule : Rule} {params : Params} (h : paramsOf rule = .ok params) :
    params.names = rule.variables :=
  names_of_ofArgs? (ofArgs?_of_paramsOf h)

/-! ## Counts -/

/-- A method may be called with this number of arguments. -/
def Signature.Accepts (signature : Signature) (count : Nat) : Prop :=
  match signature.star with
  | none => count = signature.fixed.length
  | some _ => signature.fixed.length ≤ count

/-- Each rule has as many variables as was checked. -/
theorem fits_of_checkCounts {fits : Nat → Bool} {reason : Nat → Disagreement}
    (h : checkCounts fits reason rules = .ok ()) :
    ∀ rule ∈ rules, fits rule.variables.length = true := by
  induction rules with
  | nil => exact nofun
  | cons first rest ih =>
    obtain ⟨params, hparams, h⟩ := bind_eq_ok.mp h
    rw [names_of_paramsOf hparams] at h
    split at h
    · rename_i hfits
      exact List.forall_mem_cons.mpr ⟨hfits, ih h⟩
    · cases h

/-- **A method accepts as many arguments as each of its rules has variables.** -/
theorem accepts_of_ofRules (h : Signature.ofRules rules = .ok signature) :
    ∀ rule ∈ rules, signature.Accepts rule.variables.length := by
  obtain ⟨start, -, h⟩ := bind_eq_ok.mp h
  cases rules with
  | nil => exact nofun
  | cons first rest =>
    obtain ⟨names, hnames, h⟩ := bind_eq_ok.mp h
    obtain ⟨params, hparams, rfl⟩ := map_eq_ok.mp hnames
    rw [names_of_paramsOf hparams] at h
    cases start with
    | none =>
      obtain ⟨u, hcounts, h⟩ := bind_eq_ok.mp h
      obtain rfl := pure_eq_ok.mp h
      intro rule hrule
      have hcount := of_decide_eq_true (fits_of_checkCounts hcounts rule hrule)
      show rule.variables.length = (first.variables.map Script.identifier).length
      rw [List.length_map, hcount]
    | some k =>
      obtain ⟨u, hcounts, h⟩ := bind_eq_ok.mp h
      obtain rfl := pure_eq_ok.mp h
      intro rule hrule
      have hcount := of_decide_eq_true (fits_of_checkCounts hcounts rule hrule)
      -- the first rule is counted too, so there is a name for the star parameter
      have hfirst := of_decide_eq_true (fits_of_checkCounts hcounts first (List.mem_cons_self ..))
      show match (first.variables[k]?).map Script.identifier with
        | none => _
        | some _ => ((first.variables.take k).map Script.identifier).length ≤ _
      rw [List.getElem?_eq_getElem hfirst, List.length_map, List.length_take]
      show min k first.variables.length ≤ rule.variables.length
      omega

/-- The parameter at a place holds the argument at that place. -/
theorem value?_of_binding {values : List V} (haccepts : signature.Accepts values.length)
    (hreceives : signature.Receives frame values) {i : Nat} {v : V} (hv : values[i]? = some v) :
    (signature.binding i).value? m frame = some v := by
  have hparam : i < signature.fixed.length →
      (Binding.param (signature.fixed.getD i "")).value? m frame = some v := by
    intro hi
    rw [List.getD_eq_getElem?_getD, List.getElem?_eq_getElem hi]
    exact hreceives.fixed i _ v (List.getElem?_eq_getElem hi) hv
  unfold Signature.binding
  unfold Signature.Accepts at haccepts
  cases hstar : signature.star with
  | none =>
    rw [hstar] at haccepts
    obtain ⟨hi, -⟩ := List.getElem?_eq_some_iff.mp hv
    exact hparam (haccepts ▸ hi)
  | some star =>
    by_cases hi : i < signature.fixed.length
    · simp only [hi, if_true]
      exact hparam hi
    · -- the star parameter begins with the arguments that the fixed ones leave
      simp only [hi, if_false]
      obtain ⟨more, hmore⟩ := hreceives.star star hstar
      rw [Binding.value?, hmore]
      show (values.drop signature.fixed.length ++ more)[i - signature.fixed.length]? = some v
      have hdrop : (values.drop signature.fixed.length)[i - signature.fixed.length]? = some v := by
        rw [List.getElem?_drop, Nat.add_sub_cancel' (Nat.le_of_not_lt hi), hv]
      rw [List.getElem?_append_left (List.getElem?_eq_some_iff.mp hdrop).1, hdrop]

/-! ## Star parameters -/

/-- Without continuations no rule says where a star parameter begins. -/
theorem start_of_commonStart {start : Option Nat} (h : commonStart none rules = .ok start)
    (hrules : ∀ rule ∈ rules, ∀ arg ∈ rule.intention.args, arg.continuation? = none) :
    start = none := by
  induction rules with
  | nil => exact (Except.ok.inj h).symm
  | cons first rest ih =>
    obtain ⟨params, hparams, h⟩ := bind_eq_ok.mp h
    obtain ⟨hfirst, hrest⟩ := List.forall_mem_cons.mp hrules
    -- the first rule sets no start, so the others begin without one as well
    rw [continuation_of_ofArgs? (ofArgs?_of_paramsOf hparams) hfirst] at h
    exact ih h hrest

/-- Without continuations there is no star parameter. -/
theorem star_of_ofRules (h : Signature.ofRules rules = .ok signature)
    (hrules : ∀ rule ∈ rules, ∀ arg ∈ rule.intention.args, arg.continuation? = none) :
    signature.star = none := by
  obtain ⟨start, hstart, h⟩ := bind_eq_ok.mp h
  obtain rfl := start_of_commonStart hstart hrules
  cases rules with
  | nil =>
    obtain ⟨names, -, h⟩ := bind_eq_ok.mp h
    obtain ⟨u, -, h⟩ := bind_eq_ok.mp h
    obtain rfl := pure_eq_ok.mp h
    rfl
  | cons first rest =>
    obtain ⟨names, -, h⟩ := bind_eq_ok.mp h
    obtain ⟨u, -, h⟩ := bind_eq_ok.mp h
    obtain rfl := pure_eq_ok.mp h
    rfl

end Imitation

end CausalRules
