import CausalRules.Proofs.Traversal

/-!
# Steps that may crash

An access outside a list or a text, or inside a character, ends a program without a result and
without an error. A step that may end so is compared with the step of the model, which cannot.

- `Checked`: a step that crashes, fails with an error, or has a result.
- `crash`, `checked`: the step that crashes, and the one that does not.
- `element`, `upTo`, `minus`: an access to a list and a difference, which crash out of range.
- `bind_checked`, `map_checked`, `mapM_checked`, `foldlM_checked`: steps that do not crash are
  composed to steps that do not crash.
-/

namespace CausalRules.Safety

/-- A step that may crash. It is nothing then; otherwise it is an error or a result. -/
abbrev Checked (ε : Type) := ExceptT ε Option

variable {ε α β : Type}

/-- The step that crashes. -/
def crash : Checked ε α :=
  ExceptT.mk none

/-- The step that does not crash, but has an outcome. -/
def checked (x : Except ε α) : Checked ε α :=
  ExceptT.mk (some x)

/-- The element at an index, which must be one of the list. -/
def element (as : List α) (index : Nat) : Checked ε α :=
  match as[index]? with
  | some a => return a
  | none => crash

/-- The elements before an index, and those from it on. The list must reach up to there. -/
def splitAt (as : List α) (index : Nat) : Checked ε (List α × List α) :=
  if index ≤ as.length then return (as.take index, as.drop index) else crash

/-- The elements before an index. -/
def upTo (as : List α) (index : Nat) : Checked ε (List α) :=
  Prod.fst <$> splitAt as index

/-- A difference, which must not be negative. -/
def minus (a b : Nat) : Checked ε Nat :=
  if b ≤ a then return a - b else crash

theorem element_of_lt {as : List α} {index : Nat} (h : index < as.length) :
    (element as index : Checked ε α) = pure as[index] := by
  rw [element, List.getElem?_eq_getElem h]

theorem splitAt_of_le {as : List α} {index : Nat} (h : index ≤ as.length) :
    (splitAt as index : Checked ε _) = pure (as.take index, as.drop index) :=
  if_pos h

theorem upTo_of_le {as : List α} {index : Nat} (h : index ≤ as.length) :
    (upTo as index : Checked ε _) = pure (as.take index) := by
  rw [upTo, splitAt_of_le h, map_pure]

theorem minus_of_le {a b : Nat} (h : b ≤ a) : (minus a b : Checked ε Nat) = pure (a - b) :=
  if_pos h

/-! ## Composed steps -/

theorem checked_ok (a : α) : (checked (.ok a) : Checked ε α) = pure a :=
  rfl

theorem bind_checked {x : Except ε α} {k : α → Checked ε β} {f : α → Except ε β}
    (h : ∀ a, x = .ok a → k a = checked (f a)) : checked x >>= k = checked (x >>= f) := by
  cases x with
  | error e => rfl
  | ok a => exact h a rfl

theorem map_checked {x : Except ε α} (f : α → β) : f <$> checked x = checked (f <$> x) := by
  cases x with
  | error e => rfl
  | ok a => rfl

theorem mapM_checked {as : List α} {k : α → Checked ε β} {f : α → Except ε β}
    (h : ∀ a ∈ as, k a = checked (f a)) : as.mapM k = checked (as.mapM f) := by
  induction as with
  | nil => rfl
  | cons a as ih =>
    rw [List.mapM_cons, List.mapM_cons, h a (List.mem_cons_self ..)]
    refine bind_checked fun b _ => ?_
    rw [ih fun a ha => h a (List.mem_cons_of_mem _ ha)]
    exact bind_checked fun bs _ => rfl

/-- What holds at the beginning and is kept by every step holds at the end. -/
theorem foldlM_kept {P : β → Prop} {f : β → α → Except ε β}
    (hkept : ∀ b a b', P b → f b a = .ok b' → P b') {as : List α} {b b' : β} (h : P b)
    (hfold : as.foldlM f b = .ok b') : P b' := by
  induction as generalizing b with
  | nil => exact Except.ok.inj hfold ▸ h
  | cons a as ih =>
    obtain ⟨c, hc, hfold⟩ := bind_eq_ok.mp hfold
    exact ih (hkept b a c h hc) hfold

/-- It also holds at each step, where it may keep the step from crashing. -/
theorem foldlM_checked {P : β → Prop} {k : β → α → Checked ε β} {f : β → α → Except ε β}
    (hstep : ∀ b a, P b → k b a = checked (f b a))
    (hkept : ∀ b a b', P b → f b a = .ok b' → P b') {as : List α} {b : β} (h : P b) :
    as.foldlM k b = checked (as.foldlM f b) := by
  induction as generalizing b with
  | nil => rfl
  | cons a as ih =>
    rw [List.foldlM_cons, List.foldlM_cons, hstep b a h]
    exact bind_checked fun b' hb' => ih (hkept b a b' h hb')

end CausalRules.Safety
