import CausalRules.Proofs.Imitation.Execution

/-!
# What methods return

Running the statements of a method tries its rules in turn. The first whose guard holds, and whose
calls use everything that the method was called with when there are several rules, returns its
calls, each as the tuple of its name and arguments.

- `Clause.returns?`, `Method.run?`: the calls that a rule and a method return.
- `exists_run?_gathering`: the nested loops gather what calls use.
- `outcome?_code`, `Method.returned?_code`: the statements return these calls.
-/

namespace CausalRules.Imitation

/-! ## Calls that are returned -/

variable {V : Type} (m : Interpretation V) (scene : Scene V)

/-- The calls that are returned of those that a rule comes to. If there are several rules, they have
to use everything that the method was called with. -/
def kept? (compared : Option Signature) (frame : Frame V) (calls : List (String × List V)) :
    Option (Option (List (String × List V))) :=
  match compared with
  | none => some (some calls)
  | some signature => do
    let given ← signature.arguments? frame
    let used := calls.flatMap (Call.tuple m)
    return if given.flatten.all fun value => used.any (m.compare .equal value) then some calls
      else none

/-- The calls that a clause returns. -/
def Clause.returns? (compared : Option Signature) (clause : Clause) (frame : Frame V) :
    Option (Option (List (String × List V))) := do
  match ← clause.run? m scene frame with
  | some calls => kept? m compared frame calls
  | none => return none

/-- The calls of the first clause that returns any. Each clause lists the objects of its types. -/
def firstOf? (compared : Option Signature) :
    List Clause → Frame V → Option (Option (List (String × List V)))
  | [], _ => some none
  | clause :: rest, frame => do
    let frame := clause.listed.foldl (Frame.list m scene) frame
    match ← clause.returns? m scene compared frame with
    | some calls => return some calls
    | none => firstOf? compared rest frame

/-- The calls that a method returns. -/
def Method.run? (method : Method) (frame : Frame V) : Option (Option (List (String × List V))) :=
  match method.signature.star with
  | some star => do
    let _ ← frame.all? star
    firstOf? m scene method.compared method.clauses frame
  | none => firstOf? m scene method.compared method.clauses frame

/-- What running statements comes to, as far as parameters and lists are concerned. -/
def Code.outcome? (code : Code) (state : State V) : Option (Outcome (Frame V) V) :=
  Outcome.map State.frame <$> code.run? m scene state

/-- The value that a method returns for calls. -/
def Held.ofCalls (calls : List (String × List V)) : Held V :=
  .nested (calls.map (Call.tuple m))

/-- Calls are returned, or it goes on. -/
def Outcome.ofCalls (frame : Frame V) : Option (List (String × List V)) → Outcome (Frame V) V
  | some calls => .returned (Held.ofCalls m calls)
  | none => .goesOn frame

/-- What statements return, if they do. -/
def Code.returned? (code : Code) (state : State V) : Option (Option (Held V)) :=
  Outcome.returned? <$> code.run? m scene state

variable {m scene}

/-! ## One after the other -/

theorem Outcome.andThen_assoc {S : Type} (outcome : Outcome S V)
    (f g : S → Option (Outcome S V)) :
    (outcome.andThen f >>= (·.andThen g)) =
      outcome.andThen fun state => f state >>= (·.andThen g) := by
  cases outcome <;> rfl

/-- Running statements one after the other. -/
theorem Code.run?_append (code next : Code) (state : State V) :
    (code.append next).run? m scene state =
      code.run? m scene state >>= (·.andThen (next.run? m scene)) := by
  induction code generalizing state with
  | done => rfl
  | act statement rest ih =>
    rw [append, run?, run?, bind_assoc]
    exact bind_congr ih
  | when question block rest _ ih =>
    rw [append, run?, run?, bind_assoc, funext ih]
    refine bind_congr fun holds => ?_
    cases holds with
    | true =>
      rw [if_pos rfl, if_pos rfl, bind_assoc]
      exact bind_congr fun outcome => (Outcome.andThen_assoc ..).symm
    | false => rfl
  | each name sequence block rest _ ih =>
    rw [append, run?, run?, bind_assoc, funext ih]
    refine bind_congr fun held => ?_
    rw [bind_assoc]
    refine bind_congr fun elements => ?_
    rw [bind_assoc]
    exact bind_congr fun outcome => (Outcome.andThen_assoc ..).symm
  | give name rest =>
    rw [append, run?, run?]
    cases state.own name <;> rfl

/-! ## What calls use -/

/-- Values were noted, and nothing else has changed that is still needed. -/
structure State.Noted (before : State V) (values : List V) (after : State V) : Prop where
  frame : after.frame = before.frame
  args : after.own "__all_args" = some (.several values)
  calls : after.own "__ret_val" = before.own "__ret_val"

/-- Each round of a loop notes values that its element brings. -/
def Code.Notes {α : Type} (m : Interpretation V) (scene : Scene V) (block : Code) (name : String)
    (hold : α → Held V) (added : α → List V) : Prop :=
  ∀ (state : State V) values a, state.own "__all_args" = some (.several values) →
    ∃ after, block.run? m scene (state.assign name (hold a)) = some (.goesOn after) ∧
      state.Noted (values ++ added a) after

/-- If each round of a loop notes values, the loop notes those of all rounds. -/
theorem Code.Notes.exists_run?_each {α : Type} {block : Code} {name sequence : String}
    {hold : α → Held V} {added : α → List V} (h : block.Notes m scene name hold added)
    {state : State V} {values : List V} {held : Held V} {as : List α}
    (hsequence : state.own sequence = some held) (helements : held.elements? = some (as.map hold))
    (hargs : state.own "__all_args" = some (.several values)) :
    ∃ after, (Code.each name sequence block .done).run? m scene state = some (.goesOn after) ∧
      state.Noted (values ++ as.flatMap added) after := by
  have hrounds : ∃ after, (as.map hold).foldlM (fun (outcome : Outcome (State V) V) held =>
      outcome.andThen fun state => block.run? m scene (state.assign name held)) (.goesOn state) =
        some (.goesOn after) ∧ state.Noted (values ++ as.flatMap added) after := by
    clear hsequence helements
    induction as generalizing state values with
    | nil => exact ⟨state, rfl, rfl, by rw [hargs, List.flatMap_nil, List.append_nil], rfl⟩
    | cons a as ih =>
      obtain ⟨next, hnext, hnoted⟩ := h state values a hargs
      obtain ⟨after, hafter, hlater⟩ := ih hnoted.args
      refine ⟨after, ?_, hlater.frame.trans hnoted.frame, ?_, hlater.calls.trans hnoted.calls⟩
      · rw [List.map_cons, List.foldlM_cons, Outcome.andThen, hnext]
        exact hafter
      · rw [hlater.args, List.flatMap_cons, List.append_assoc]
  obtain ⟨after, hafter, hnoted⟩ := hrounds
  refine ⟨after, ?_, hnoted⟩
  simp only [Code.run?, hsequence, helements, Option.bind_eq_bind, Option.bind_some, hafter]
  rfl

/-- A round of the inner loop notes one value. -/
theorem notes_append :
    (Code.act (.append "__all_args" "__arg") .done).Notes m scene "__arg" .single ([·]) := by
  intro state values value hargs
  have hvalues : (state.assign "__arg" (.single value)).several? "__all_args" = some values := by
    simp [State.several?, hargs]
  refine ⟨(state.assign "__arg" (.single value)).assign "__all_args"
    (.several (values ++ [value])), ?_, rfl, by simp, by simp⟩
  rw [Code.run?, Statement.next?, hvalues]
  simp [Code.run?]

/-- A round of the outer loop notes the values of one call. -/
theorem notes_each :
    (Code.each "__arg" "__action" (.act (.append "__all_args" "__arg") .done) .done).Notes m scene
      "__action" .several id := by
  intro state values call hargs
  have hsequence : (state.assign "__action" (.several call)).own "__action" =
      some (.several call) := by simp
  have hstart : (state.assign "__action" (.several call)).own "__all_args" =
      some (.several values) := by simpa using hargs
  obtain ⟨after, hafter, hnoted⟩ := notes_append.exists_run?_each hsequence rfl hstart
  refine ⟨after, hafter, hnoted.frame, ?_, hnoted.calls.trans (by simp)⟩
  rw [hnoted.args, List.flatMap_singleton', id]

/-- **The loops gather what calls use**, and leave the calls as they are. -/
theorem exists_run?_gathering {state : State V} {calls : List (List V)}
    (hcalls : state.own "__ret_val" = some (.nested calls))
    (hargs : state.own "__all_args" = some (.several [])) :
    ∃ after, gathering.run? m scene state = some (.goesOn after) ∧
      state.Noted calls.flatten after := by
  obtain ⟨after, hafter, hnoted⟩ := notes_each.exists_run?_each hcalls rfl hargs
  refine ⟨after, hafter, ?_⟩
  rwa [List.nil_append, List.flatMap_id] at hnoted

/-! ## Clauses -/

theorem next?_flatten {state : State V} {name : String} {held : Held V} {values : List V}
    (hheld : state.own name = some held) (hvalues : held.flatten? = some values) :
    (Statement.flatten name).next? m scene state = some (state.assign name (.several values)) := by
  rw [Statement.next?, hheld, Option.bind_eq_bind, Option.bind_some, hvalues]
  rfl

/-- Calls are returned if everything that the method was called with is among what they use. -/
theorem outcome?_comparing {state : State V} {calls : List (String × List V)}
    (signature : Signature) (hcalls : state.own "__ret_val" = some (.ofCalls m calls))
    (hargs : state.own "__all_args" = some (.several (calls.flatMap (Call.tuple m)))) :
    (comparing signature).outcome? m scene state =
      Outcome.ofCalls m state.frame <$> kept? m (some signature) state.frame calls := by
  unfold comparing Code.outcome?
  rw [Code.run?, Statement.next?, kept?]
  cases signature.arguments? state.frame with
  | none => rfl
  | some given =>
    let listed := state.assign "__all_intention_args" (.nested given)
    let flat := listed.assign "__all_intention_args" (.several given.flatten)
    let last := flat.assign "__all_args" (.several (calls.flatMap (Call.tuple m)))
    have hlisted : listed.own "__all_intention_args" = some (.nested given) := by simp [listed]
    have hflat : (Statement.flatten "__all_intention_args").next? m scene listed = some flat :=
      next?_flatten hlisted rfl
    have hlast : (Statement.flatten "__all_args").next? m scene flat = some last :=
      next?_flatten (by simpa [flat, listed] using hargs) rfl
    have hholds : (Question.contained "__all_intention_args" "__all_args").holds? m scene last =
        some (given.flatten.all fun value =>
          (calls.flatMap (Call.tuple m)).any (m.compare .equal value)) := by
      simp [Question.holds?, State.several?, last, flat]
    have hgive : last.own "__ret_val" = some (.ofCalls m calls) := by
      simpa [last, flat, listed] using hcalls
    simp only [Option.bind_eq_bind, Option.bind_some, Option.pure_def]
    rw [Code.run?, hflat, Option.bind_eq_bind, Option.bind_some, Code.run?, hlast,
      Option.bind_eq_bind, Option.bind_some, Code.run?, hholds, Option.bind_eq_bind,
      Option.bind_some]
    split
    · rw [Code.run?, hgive]
      rfl
    · rfl

/-- Of the calls that were assigned those are returned that are to be. -/
theorem outcome?_returning {state : State V} {calls : List (String × List V)}
    (compared : Option Signature) (hcalls : state.own "__ret_val" = some (.ofCalls m calls)) :
    (returning compared).outcome? m scene state =
      Outcome.ofCalls m state.frame <$> kept? m compared state.frame calls := by
  cases compared with
  | none =>
    rw [returning, Code.outcome?, Code.run?, hcalls]
    rfl
  | some signature =>
    let start := state.assign "__all_args" (.several [])
    have hstart : start.own "__ret_val" = some (.ofCalls m calls) := by
      simpa [start] using hcalls
    have hempty : start.own "__all_args" = some (.several []) := by simp [start]
    obtain ⟨after, hafter, hnoted⟩ : ∃ after, gathering.run? m scene start = some (.goesOn after) ∧
        start.Noted (calls.map (Call.tuple m)).flatten after :=
      exists_run?_gathering hstart hempty
    have hcomparing : (comparing signature).outcome? m scene after =
        Outcome.ofCalls m after.frame <$> kept? m (some signature) after.frame calls :=
      outcome?_comparing signature (hnoted.calls.trans hstart)
        (by rw [hnoted.args, List.flatMap_def])
    rw [hnoted.frame] at hcomparing
    rw [returning, Code.outcome?, Code.run?, Statement.next?, Option.bind_eq_bind,
      Option.bind_some, Code.run?_append, hafter]
    exact hcomparing

theorem outcome?_body (compared : Option Signature) (clause : Clause) (state : State V) :
    (clause.body compared).outcome? m scene state =
      clause.calls.mapM (Call.value? m scene state.frame) >>= fun calls =>
        Outcome.ofCalls m state.frame <$> kept? m compared state.frame calls := by
  rw [Clause.body, Code.outcome?, Code.run?, Statement.next?]
  cases clause.calls.mapM (Call.value? m scene state.frame) with
  | none => rfl
  | some calls =>
    let assigned := state.assign "__ret_val" (.ofCalls m calls)
    have hassigned : assigned.own "__ret_val" = some (.ofCalls m calls) := by
      simp [assigned]
    exact outcome?_returning compared hassigned

/-- A block that is all there is. -/
theorem outcome?_when (question : Question) (block : Code) (state : State V) :
    (Code.when question block .done).outcome? m scene state = do
      if ← question.holds? m scene state then block.outcome? m scene state
      else return .goesOn state.frame := by
  have hdone : ∀ outcome : Outcome (State V) V,
      outcome.andThen (Code.done.run? m scene) = some outcome := by
    intro outcome
    cases outcome <;> rfl
  unfold Code.outcome?
  rw [Code.run?]
  cases question.holds? m scene state with
  | none => rfl
  | some holds =>
    cases holds with
    | false => rfl
    | true =>
      simp only [Option.bind_eq_bind, Option.bind_some, hdone, if_true]
      cases block.run? m scene state <;> rfl

theorem Clause.returns?_eq (compared : Option Signature) (clause : Clause) (frame : Frame V) :
    clause.returns? m scene compared frame =
      clause.guard.truth? m scene frame >>= fun holds =>
        if holds then clause.calls.mapM (Call.value? m scene frame) >>= kept? m compared frame
        else some none := by
  unfold returns? run?
  cases clause.guard.truth? m scene frame with
  | none => rfl
  | some holds =>
    cases holds with
    | false => rfl
    | true => cases clause.calls.mapM (Call.value? m scene frame) <;> rfl

/-- **A clause returns its calls if its guard holds** and they are to be returned. -/
theorem outcome?_code (compared : Option Signature) (clause : Clause) (state : State V) :
    (clause.code compared).outcome? m scene state =
      let frame := clause.listed.foldl (Frame.list m scene) state.frame
      Outcome.ofCalls m frame <$> clause.returns? m scene compared frame := by
  have hlisted : ∀ (listed : List String) (code : Code) (state : State V),
      (listed.foldr (fun typeName => .act (.list typeName)) code).outcome? m scene state =
        code.outcome? m scene { state with
          frame := listed.foldl (Frame.list m scene) state.frame } := by
    intro listed code
    induction listed with
    | nil => exact fun state => rfl
    | cons typeName listed ih => exact fun state => ih _
  dsimp only
  rw [Clause.code, hlisted, Clause.returns?_eq]
  generalize hlater : clause.listed.foldl (Frame.list m scene) state.frame = frame
  have hbody : (clause.body compared).outcome? m scene { state with frame := frame } =
      Outcome.ofCalls m frame <$>
        (clause.calls.mapM (Call.value? m scene frame) >>= kept? m compared frame) := by
    rw [outcome?_body]
    cases clause.calls.mapM (Call.value? m scene frame) <;> rfl
  cases clause.guard with
  | absent => exact hbody
  | satisfied =>
    dsimp only
    rw [outcome?_when, hbody]
    rfl
  | test formula =>
    dsimp only
    rw [outcome?_when, hbody, Question.holds?, Guard.truth?]
    cases formula.value? (Test.truth? m scene frame) with
    | none => rfl
    | some holds => cases holds <;> rfl

/-! ## Methods -/

/-- Clauses one after the other return what the first returns that returns anything. -/
theorem returned?_codeOf (compared : Option Signature) (clauses : List Clause) (state : State V) :
    (codeOf compared clauses).returned? m scene state =
      Option.map (Held.ofCalls m) <$> firstOf? m scene compared clauses state.frame := by
  induction clauses generalizing state with
  | nil => rfl
  | cons clause clauses ih =>
    unfold Code.returned? at ih ⊢
    rw [codeOf, List.foldr_cons, ← codeOf, Code.run?_append, firstOf?]
    have hclause : Outcome.map State.frame <$> (clause.code compared).run? m scene state = _ :=
      outcome?_code compared clause state
    dsimp only at hclause ⊢
    generalize clause.listed.foldl (Frame.list m scene) state.frame = frame at hclause ⊢
    cases hreturns : clause.returns? m scene compared frame with
    | none =>
      rw [hreturns] at hclause
      rw [Option.map_eq_none_iff.mp hclause]
      rfl
    | some calls =>
      rw [hreturns] at hclause
      obtain ⟨outcome, hrun, hmap⟩ := Option.map_eq_some_iff.mp hclause
      rw [hrun]
      cases outcome with
      | returned held =>
        cases calls with
        | some calls =>
          cases hmap
          rfl
        | none => cases hmap
      | goesOn later =>
        cases calls with
        | some calls => cases hmap
        | none =>
          -- the next clauses run with the lists of this one
          cases hmap
          exact ih later

/-- **Running the statements of a method returns its calls**, each as its tuple. -/
theorem Method.returned?_code (method : Method) (state : State V) :
    method.code.returned? m scene state =
      Option.map (Held.ofCalls m) <$> method.run? m scene state.frame := by
  unfold code run?
  cases method.signature.star with
  | none => exact returned?_codeOf method.compared method.clauses state
  | some star =>
    dsimp only
    rw [Code.returned?, Code.run?, Statement.next?]
    cases state.frame.all? star with
    | none => rfl
    | some values => exact returned?_codeOf method.compared method.clauses state

end CausalRules.Imitation
