import CausalRules.Proofs.Traversal
import CausalRules.World

/-!
# What the system answers

An operation fails for what stands in the file tree, or because the system refuses it.

- `World.answer`: what comes of an operation; `answer_eq_ok_iff` says when it succeeds.
- `World.Grants`: an operation is not refused.
- `World.Steady`: what is refused does not depend on the files that are there. `World.Obliging`:
  nothing is refused.
-/

namespace CausalRules.World

/-- The world with another file tree. -/
def withTree (w : World) (tree : FileTree) : World :=
  { w with tree := tree }

/-- The system does not refuse an operation where the files are those of the tree. -/
def Grants (w : World) (tree : FileTree) (operation : Operation) : Prop :=
  w.refuses tree operation = none

instance (w : World) (tree : FileTree) (operation : Operation) :
    Decidable (w.Grants tree operation) :=
  inferInstanceAs (Decidable (w.refuses tree operation = none))

/-- What the system answers where the files are those of the tree: the outcome, unless it refuses the
operation. -/
def answer {α : Type} (w : World) (tree : FileTree) (operation : Operation)
    (outcome : Except Failure α) : Except Failure α :=
  match w.refuses tree operation with
  | some refusal => .error refusal.failure
  | none => outcome

/-- What is refused is so whatever files there are, and nothing keeps directories from being found. So
there is always space enough. -/
structure Steady (w : World) : Prop where
  same : ∀ tree tree' operation, w.refuses tree' operation = w.refuses tree operation
  finds : ∀ tree path, w.Grants tree (.isDirectory path)

/-- Nothing is refused. -/
def Obliging (w : World) : Prop :=
  ∀ tree operation, w.Grants tree operation

section Answer

variable {α : Type} {w : World} {tree tree' : FileTree} {operation : Operation}
  {outcome : Except Failure α}

theorem answer_of_grants (h : w.Grants tree operation) : w.answer tree operation outcome = outcome := by
  rw [answer, h]

theorem answer_of_refused {refusal : Refusal} (h : w.refuses tree operation = some refusal) :
    w.answer tree operation outcome = .error refusal.failure := by
  rw [answer, h]

theorem grants_or_refused (w : World) (tree : FileTree) (operation : Operation) :
    w.Grants tree operation ∨ ∃ refusal, w.refuses tree operation = some refusal := by
  unfold Grants
  cases w.refuses tree operation with
  | none => exact .inl rfl
  | some refusal => exact .inr ⟨refusal, rfl⟩

theorem answer_eq_ok_iff {a : α} : w.answer tree operation outcome = .ok a ↔
    w.Grants tree operation ∧ outcome = .ok a := by
  rcases w.grants_or_refused tree operation with h | ⟨refusal, h⟩
  · rw [answer_of_grants h]
    exact (and_iff_right h).symm
  · rw [answer_of_refused h, Grants, h]
    exact ⟨nofun, nofun⟩

theorem answer_map {β : Type} (f : α → β) :
    w.answer tree operation (outcome.map f) = (w.answer tree operation outcome).map f := by
  unfold answer
  cases w.refuses tree operation with
  | some | none => rfl

theorem Steady.grants_iff (h : w.Steady) : w.Grants tree' operation ↔ w.Grants tree operation := by
  rw [Grants, Grants, h.same tree tree']

theorem Obliging.steady (h : w.Obliging) : w.Steady :=
  ⟨fun tree tree' operation => (h tree' operation).trans (h tree operation).symm, fun _ _ => h _ _⟩

end Answer

end CausalRules.World
