import CausalRules.Proofs.Reading.Steps
import CausalRules.Rule.Read

/-!
# Arguments and predicates that were read

What may be relied on for a predicate that was read: it begins at the first token it takes, and in
each of its lists a continuation stands last and reaches back over arguments that are there.

- `ContinuationsFit`: continuations are well placed in a list of arguments.
- `Predicate.Fits`: they are in every list of a predicate.
- `passed_of_readArgs`, `fits_of_readPredicate`: reading gives such lists and predicates.
-/

namespace CausalRules

open Reader

/-! ## Continuations -/

/-- A continuation stands last in its list and reaches back over at least one and at most all of
the arguments before it; `before` arguments precede the given ones. -/
def ContinuationsFit (before : Nat) : List Arg → Prop
  | [] => True
  | .continuation offset :: rest => rest = [] ∧ 0 < offset ∧ offset ≤ before
  | _ :: rest => ContinuationsFit (before + 1) rest

/-- Continuations fit in the list that an operand may be. -/
def Operand.Fits : Operand → Prop
  | .list items => ContinuationsFit 0 items
  | _ => True

/-- Continuations fit in the lists of a predicate. -/
def Predicate.Fits : Predicate → Prop
  | .compare left _ right _ => left.Fits ∧ right.Fits
  | .bare operand _ => operand.Fits

/-- The offset at which a predicate begins. -/
def Predicate.position : Predicate → Nat
  | .compare _ _ _ position | .bare _ position => position

/-- A continuation has a positive offset. -/
def Arg.Reaches (arg : Arg) : Prop :=
  ∀ offset, arg = .continuation offset → 0 < offset

theorem pos_of_continuationOffset {suffix : String} {offset : Nat}
    (h : continuationOffset suffix = .ok offset) : 0 < offset := by
  unfold continuationOffset at h
  dsimp only at h
  split at h
  · cases h
    exact Nat.one_pos
  · split at h
    · cases h
    · split at h
      · cases h
      · cases h
        rename_i hne
        exact Nat.pos_of_ne_zero hne

theorem continuationsFit_of_check {before : Nat} {args : List (Nat × Arg)}
    (h : checkContinuation before args = .ok ()) (hargs : ∀ arg ∈ args, arg.2.Reaches) :
    ContinuationsFit before (args.map Prod.snd) := by
  fun_induction checkContinuation before args with
  | case1 => trivial
  | case2 => cases h
  | case3 => cases h
  | case4 before position offset rest hrest hbefore =>
    refine ⟨?_, hargs _ (List.mem_cons_self ..) offset rfl, Nat.le_of_not_lt hbefore⟩
    simpa using hrest
  | case5 before arg rest hne ih =>
    obtain ⟨position, arg⟩ := arg
    have hrest := ih h fun arg harg => hargs arg (List.mem_cons_of_mem _ harg)
    cases arg with
    | continuation offset => exact (hne position offset rfl).elim
    | _ => exact hrest

/-! ## Arguments -/

section Arguments

variable {s rest : List Located}

/-- A fraction takes tokens when a point stands first. -/
theorem suffix_of_readFraction {fraction : Option String}
    (h : Returns readFraction s fraction rest) :
    rest <:+ s ∧ ((ahead s).token = .dot → Passed s rest) := by
  obtain ⟨taken, m, hdot, hif⟩ := returns_bind.mp h
  cases taken with
  | false =>
    obtain ⟨hne, rfl⟩ := returns_accept.mp hdot
    obtain ⟨-, rfl⟩ := returns_pure.mp hif
    exact ⟨List.suffix_rfl, fun hdot => absurd hdot (of_decide_eq_false hne.symm)⟩
  | true =>
    have hpassed := passed_of_accept hdot nofun
    obtain ⟨here, m₁, hcurrent, hmatch⟩ := returns_bind.mp hif
    obtain ⟨rfl, rfl⟩ := returns_current.mp hcurrent
    have hrest : rest <:+ m₁ := by
      split at hmatch
      · obtain ⟨u, m₂, hskip, hpure⟩ := returns_bind.mp hmatch
        obtain rfl := returns_skip.mp hskip
        obtain ⟨-, rfl⟩ := returns_pure.mp hpure
        exact List.tail_suffix _
      · exact (not_returns_unexpected hmatch).elim
    exact ⟨(hpassed.trans hrest).suffix, fun _ => hpassed.trans hrest⟩

theorem suffix_of_readWhole {whole : String} (h : Returns readWhole s whole rest) :
    rest <:+ s ∧ (Passed s rest ∨ (ahead rest).token = .dot) := by
  obtain ⟨here, m, hcurrent, h⟩ := returns_bind.mp h
  obtain ⟨rfl, rfl⟩ := returns_current.mp hcurrent
  split at h
  · rename_i run htoken
    obtain ⟨u, m₁, hskip, hpure⟩ := returns_bind.mp h
    obtain rfl := returns_skip.mp hskip
    obtain ⟨-, rfl⟩ := returns_pure.mp hpure
    exact ⟨List.tail_suffix _, .inl (passed_tail htoken nofun)⟩
  · rename_i htoken
    obtain ⟨-, rfl⟩ := returns_pure.mp h
    exact ⟨List.suffix_rfl, .inr htoken⟩
  · exact (not_returns_unexpected h).elim

theorem passed_of_readNumber {n : Number} (h : Returns readNumber s n rest) : Passed s rest := by
  obtain ⟨negative, m, hminus, h⟩ := returns_bind.mp h
  obtain ⟨whole, m₁, hwhole, h⟩ := returns_bind.mp h
  obtain ⟨fraction, m₂, hfraction, hpure⟩ := returns_bind.mp h
  obtain ⟨-, rfl⟩ := returns_pure.mp hpure
  obtain ⟨hrest, hpassed⟩ := suffix_of_readFraction hfraction
  refine Passed.of_suffix (suffix_of_accept hminus) ?_
  obtain ⟨hsuffix, hdigits | hdot⟩ := suffix_of_readWhole hwhole
  · exact hdigits.trans hrest
  · exact Passed.of_suffix hsuffix (hpassed hdot)

theorem passed_of_readLiteral {arg : Arg} (h : Returns readLiteral s arg rest) :
    Passed s rest ∧ arg.Reaches := by
  obtain ⟨text, m, htext, h⟩ := returns_bind.mp h
  obtain ⟨u, m₁, hquote, hpure⟩ := returns_bind.mp h
  obtain ⟨rfl, rfl⟩ := returns_pure.mp hpure
  obtain ⟨here, m₂, hcurrent, htext⟩ := returns_bind.mp htext
  obtain ⟨rfl, rfl⟩ := returns_current.mp hcurrent
  have hpassed := passed_of_expect hquote nofun
  refine ⟨?_, by nofun⟩
  split at htext
  · rename_i name htoken
    obtain ⟨u, m₂, hskip, hpure⟩ := returns_bind.mp htext
    obtain rfl := returns_skip.mp hskip
    obtain ⟨-, rfl⟩ := returns_pure.mp hpure
    exact (passed_tail htoken nofun).trans hpassed.suffix
  · obtain ⟨n, hn, -⟩ := returns_map.mp htext
    exact (passed_of_readNumber hn).trans hpassed.suffix
  · obtain ⟨n, hn, -⟩ := returns_map.mp htext
    exact (passed_of_readNumber hn).trans hpassed.suffix
  · obtain ⟨n, hn, -⟩ := returns_map.mp htext
    exact (passed_of_readNumber hn).trans hpassed.suffix
  · exact (not_returns_unexpected htext).elim

theorem passed_of_readPlainArg {arg : Arg} (h : Returns readPlainArg s arg rest) :
    Passed s rest ∧ arg.Reaches := by
  obtain ⟨here, m, hcurrent, h⟩ := returns_bind.mp h
  obtain ⟨rfl, rfl⟩ := returns_current.mp hcurrent
  have number : Returns (.number <$> readNumber) m arg rest → Passed m rest ∧ arg.Reaches := by
    intro h
    obtain ⟨n, hn, rfl⟩ := returns_map.mp h
    exact ⟨passed_of_readNumber hn, nofun⟩
  -- a token that is an argument by itself
  have single : ∀ {token : Token} {a : Arg}, (ahead m).token = token → token ≠ .endOfInput →
      Returns (do skip; return a) m arg rest → Passed m rest ∧ arg = a := by
    intro token a htoken hend h
    obtain ⟨u, m₁, hskip, hpure⟩ := returns_bind.mp h
    obtain rfl := returns_skip.mp hskip
    obtain ⟨rfl, rfl⟩ := returns_pure.mp hpure
    exact ⟨passed_tail htoken hend, rfl⟩
  split at h
  · exact number h
  · exact number h
  · exact number h
  · rename_i name htoken
    obtain ⟨hpassed, rfl⟩ := single htoken nofun h
    exact ⟨hpassed, nofun⟩
  · rename_i suffix htoken
    split at h
    · rename_i offset hoffset
      obtain ⟨hpassed, rfl⟩ := single htoken nofun h
      refine ⟨hpassed, fun offset' heq => ?_⟩
      cases heq
      exact pos_of_continuationOffset hoffset
    · exact (not_returns_throw h).elim
  · rename_i code htoken
    obtain ⟨hpassed, rfl⟩ := single htoken nofun h
    exact ⟨hpassed, nofun⟩
  · exact (not_returns_unexpected h).elim

/-- Arguments up to a closing sign: continuations fit if those that are read have an offset. -/
theorem passed_of_readArgs {arg : Reader Arg} {closing : Token} {expected : Expected}
    {args : List Arg}
    (harg : ∀ {s a rest}, Returns arg s a rest → Passed s rest ∧ a.Reaches)
    (h : Returns (readArgs arg closing expected) s args rest) :
    Passed s rest ∧ ContinuationsFit 0 args := by
  obtain ⟨located, m, hlocated, h⟩ := returns_bind.mp h
  obtain ⟨u, m₁, hclosing, h⟩ := returns_bind.mp h
  obtain ⟨u', m₂, hcheck, hpure⟩ := returns_bind.mp h
  obtain ⟨rfl, rfl⟩ := returns_pure.mp hpure
  have hitems : (∀ a ∈ located, a.2.Reaches) ∧ Passed s m := by
    refine separated_returns (P := fun a => a.2.Reaches) (fun h => ?_) hlocated
    obtain ⟨t, m, hcurrent, h⟩ := returns_bind.mp h
    obtain ⟨rfl, rfl⟩ := returns_current.mp hcurrent
    obtain ⟨a, m₁, ha, hpure⟩ := returns_bind.mp h
    obtain ⟨rfl, rfl⟩ := returns_pure.mp hpure
    exact (harg ha).symm
  obtain ⟨-, rfl⟩ := returns_expect hclosing
  obtain ⟨hok, rfl⟩ := returns_lift.mp hcheck
  refine ⟨hitems.2.trans (List.tail_suffix m), ?_⟩
  exact continuationsFit_of_check hok hitems.1

theorem passed_of_readArgWith {stateArgs : Nat → Reader (List Arg)} {arg : Arg}
    (hstate : ∀ {position s args rest}, Returns (stateArgs position) s args rest → rest <:+ s)
    (h : Returns (readArgWith stateArgs) s arg rest) : Passed s rest ∧ arg.Reaches := by
  obtain ⟨here, m, hcurrent, h⟩ := returns_bind.mp h
  obtain ⟨rfl, rfl⟩ := returns_current.mp hcurrent
  split at h
  · obtain ⟨u, m₁, hskip, h⟩ := returns_bind.mp h
    obtain rfl := returns_skip.mp hskip
    obtain ⟨hpassed, hreaches⟩ := passed_of_readLiteral h
    exact ⟨hpassed.of_suffix (List.tail_suffix m), hreaches⟩
  · obtain ⟨u, m₁, hskip, h⟩ := returns_bind.mp h
    obtain rfl := returns_skip.mp hskip
    obtain ⟨u', m₂, hopen, h⟩ := returns_bind.mp h
    obtain ⟨args, hargs, rfl⟩ := returns_map.mp h
    have hpassed := (passed_of_expect hopen nofun).trans (hstate hargs)
    exact ⟨hpassed.of_suffix (List.tail_suffix m), by nofun⟩
  · exact passed_of_readPlainArg h

theorem passed_of_readArg {limit : Nat} (depth : Nat) :
    ∀ {s arg rest}, Returns (readArg limit depth) s arg rest → Passed s rest ∧ arg.Reaches := by
  induction depth with
  | zero =>
    intro s arg rest h
    exact passed_of_readArgWith (fun h => (not_returns_throw h).elim) h
  | succ depth ih =>
    intro s arg rest h
    exact passed_of_readArgWith (fun h => (passed_of_readArgs ih h).1.suffix) h

end Arguments

/-! ## Predicates -/

section Predicates

variable {limit depth : Nat} {s rest : List Located}

theorem suffix_of_readCallName {expected : Expected} {name : String}
    (h : Returns (readCallName expected) s name rest) : rest <:+ s := by
  obtain ⟨u, m, hopen, h⟩ := returns_bind.mp h
  obtain ⟨here, m₁, hcurrent, h⟩ := returns_bind.mp h
  obtain ⟨rfl, rfl⟩ := returns_current.mp hcurrent
  have hopen := passed_of_expect hopen nofun
  split at h
  · obtain ⟨u, m₂, hskip, h⟩ := returns_bind.mp h
    obtain rfl := returns_skip.mp hskip
    obtain ⟨u', m₂, hclose, hpure⟩ := returns_bind.mp h
    obtain ⟨-, rfl⟩ := returns_pure.mp hpure
    have hclose := passed_of_expect hclose nofun
    exact hclose.suffix.trans ((List.tail_suffix _).trans hopen.suffix)
  · exact (not_returns_unexpected h).elim

theorem fits_of_readListItems {items : List Arg}
    (h : Returns (readListItems (readArg limit depth)) s items rest) :
    rest <:+ s ∧ ContinuationsFit 0 items := by
  obtain ⟨taken, m, haccept, hif⟩ := returns_bind.mp h
  have hsuffix := suffix_of_accept haccept
  cases taken with
  | true =>
    obtain ⟨rfl, rfl⟩ := returns_pure.mp hif
    exact ⟨hsuffix, trivial⟩
  | false =>
    obtain ⟨hpassed, hfit⟩ := passed_of_readArgs (passed_of_readArg depth) hif
    exact ⟨hpassed.suffix.trans hsuffix, hfit⟩

theorem fits_of_readOperand {operand : Operand}
    (h : Returns (readOperand limit depth) s operand rest) : Passed s rest ∧ operand.Fits := by
  obtain ⟨here, m, hcurrent, h⟩ := returns_bind.mp h
  obtain ⟨rfl, rfl⟩ := returns_current.mp hcurrent
  split at h
  · rename_i htoken
    obtain ⟨u, m₁, hskip, h⟩ := returns_bind.mp h
    obtain rfl := returns_skip.mp hskip
    obtain ⟨name, hname, rfl⟩ := returns_map.mp h
    exact ⟨(passed_tail htoken nofun).trans (suffix_of_readCallName hname), trivial⟩
  · rename_i htoken
    obtain ⟨u, m₁, hskip, h⟩ := returns_bind.mp h
    obtain rfl := returns_skip.mp hskip
    obtain ⟨name, hname, rfl⟩ := returns_map.mp h
    exact ⟨(passed_tail htoken nofun).trans (suffix_of_readCallName hname), trivial⟩
  · rename_i htoken
    obtain ⟨u, m₁, hskip, h⟩ := returns_bind.mp h
    obtain rfl := returns_skip.mp hskip
    cases depth with
    | zero => exact (not_returns_throw h).elim
    | succ depth =>
      obtain ⟨items, hitems, rfl⟩ := returns_map.mp h
      obtain ⟨hsuffix, hfit⟩ := fits_of_readListItems hitems
      exact ⟨(passed_tail htoken nofun).trans hsuffix, hfit⟩
  · obtain ⟨arg, m₁, harg, h⟩ := returns_bind.mp h
    have hpassed := (passed_of_readArg depth harg).1
    split at h
    · obtain ⟨u, m₂, hthrow, -⟩ := returns_bind.mp h
      exact (not_returns_throw hthrow).elim
    · obtain ⟨rfl, rfl⟩ := returns_pure.mp h
      exact ⟨hpassed, trivial⟩

/-- A predicate begins at the first token that it takes. -/
theorem fits_of_readPredicate {p : Predicate} (h : Returns (readPredicate limit depth) s p rest) :
    p.position = (ahead s).position ∧ Passed s rest ∧ p.Fits := by
  obtain ⟨here, m, hcurrent, h⟩ := returns_bind.mp h
  obtain ⟨rfl, rfl⟩ := returns_current.mp hcurrent
  obtain ⟨left, m₁, hleft, h⟩ := returns_bind.mp h
  obtain ⟨hpassed, hfits⟩ := fits_of_readOperand hleft
  obtain ⟨here, m₂, hcurrent, h⟩ := returns_bind.mp h
  obtain ⟨rfl, rfl⟩ := returns_current.mp hcurrent
  split at h
  · obtain ⟨u, m₂, hskip, h⟩ := returns_bind.mp h
    obtain rfl := returns_skip.mp hskip
    obtain ⟨right, m₂, hright, hpure⟩ := returns_bind.mp h
    obtain ⟨rfl, rfl⟩ := returns_pure.mp hpure
    obtain ⟨hpassed', hfits'⟩ := fits_of_readOperand hright
    exact ⟨rfl, hpassed.trans (hpassed'.suffix.trans (List.tail_suffix _)), hfits, hfits'⟩
  · obtain ⟨rfl, rfl⟩ := returns_pure.mp h
    exact ⟨rfl, hpassed, hfits⟩

end Predicates

end CausalRules
