import CausalRules.CommandLine.Run
import CausalRules.Proofs.World

/-!
# Steps that change no file

Most steps of a run only ask and print: afterwards the files are as before, and what was printed has
become longer. Such a step has a rule for each way to build it from others.

- `World.Resembles`: worlds that differ in what was printed only.
- `Looks`: a step that changes no file, with what holds of its result and of what it prints;
  `Asks`: one that prints nothing.
- `looks_bind`, `asks_bind`, `looks_run_bind`: steps one after the other.
- `Exactly`: a step succeeds with the results of a given property, and no others.
- `World.Reads`: a file can be read; `asks_readAtMost` for reading one that is not too large.
- `World.Logs`: the lines of the log can be written; `asks_note` for logging to the terminal.
- `looks_print_bind`, `looks_printError_bind`: printing, which the system may refuse.
-/

namespace CausalRules

/-- Worlds that differ in what was printed only. -/
structure World.Resembles (v w : World) : Prop where
  tree : v.tree = w.tree
  environment : v.environment = w.environment
  time : v.time = w.time
  runNumber : v.runNumber = w.runNumber
  refuses : v.refuses = w.refuses

theorem World.Resembles.refl (w : World) : w.Resembles w :=
  ⟨rfl, rfl, rfl, rfl, rfl⟩

theorem World.Resembles.trans {u v w : World} (h : u.Resembles v) (h' : v.Resembles w) :
    u.Resembles w :=
  ⟨h.tree.trans h'.tree, h.environment.trans h'.environment, h.time.trans h'.time,
    h.runNumber.trans h'.runNumber, h.refuses.trans h'.refuses⟩

/-- Worlds that differ in what was printed resemble each other with any file tree. -/
theorem World.Resembles.withTree {v w : World} (h : v.Resembles w) :
    v.Resembles (w.withTree v.tree) :=
  ⟨rfl, h.environment, h.time, h.runNumber, h.refuses⟩

/-- The files of both may be replaced. -/
theorem World.Resembles.withTrees {v w : World} (h : v.Resembles w) (tree : FileTree) :
    (v.withTree tree).Resembles (w.withTree tree) :=
  ⟨rfl, h.environment, h.time, h.runNumber, h.refuses⟩

theorem World.Resembles.addPrinted {v w : World} (h : v.Resembles w) (text : String) :
    (v.addPrinted text).Resembles w :=
  ⟨h.tree, h.environment, h.time, h.runNumber, h.refuses⟩

theorem World.Resembles.addErrors {v w : World} (h : v.Resembles w) (text : String) :
    (v.addErrors text).Resembles w :=
  ⟨h.tree, h.environment, h.time, h.runNumber, h.refuses⟩

theorem World.Resembles.obliging {v w : World} {tree : FileTree} (h : v.Resembles (w.withTree tree))
    (hobliging : w.Obliging) : v.Obliging := by
  intro tree' operation
  rw [World.Grants, h.refuses]
  exact hobliging tree' operation

/-- A file can be read, and that is its content. -/
structure World.Reads (w : World) (path : String) (content : ByteArray) : Prop where
  size : w.Grants w.tree (.size path)
  read : w.Grants w.tree (.read path)
  content : w.tree.read path = .ok content

/-- What comes of reading a file. -/
def World.reading (w : World) (path : String) : Except Failure ByteArray :=
  w.answer w.tree (.read path) (w.tree.read path)

/-- The lines of the log are not refused, be it a file or the terminal. -/
def World.Logs (w : World) (allows : Log.Event → Bool) (path? : Option String) :
    Prop :=
  ∀ tree event, allows event = true → match path? with
    | some path => w.Grants tree (.extend path (event.line w.time).toUTF8)
    | none => w.Grants tree (.printError (event.line w.time))

theorem World.Obliging.reading_eq {w : World} (h : w.Obliging) (path : String) :
    w.reading path = w.tree.read path :=
  answer_of_grants (h _ _)

theorem World.Obliging.reads {w : World} (h : w.Obliging) {path : String} {content : ByteArray}
    (hread : w.tree.read path = .ok content) : w.Reads path content :=
  ⟨h _ _, h _ _, hread⟩

theorem World.Obliging.logs {w : World} (h : w.Obliging) (allows : Log.Event → Bool)
    (path? : Option String) : w.Logs allows path? := by
  intro tree event _
  cases path? with
  | none | some => exact h ..

namespace CommandLine

open World (Step)

/-! ## Rules -/

/-- Whatever was printed before, the step changes no file, prints a text, and has a result, such that
the property holds of both. -/
def Looks {α : Type} (w : World) (x : Step α) (Q : α → String → Prop) : Prop :=
  ∀ v : World, v.Resembles w → (x v).2.Resembles w ∧
    ∃ out, (x v).2.printed = v.printed ++ out ∧ Q (x v).1 out

/-- The step prints nothing where results are printed. -/
def Asks {α : Type} (w : World) (x : Step α) (Q : α → Prop) : Prop :=
  Looks w x fun a out => out = "" ∧ Q a

section Rules

variable {α β ε : Type} {w : World} {x : Step α} {f : α → Step β}

theorem Looks.mono {Q R : α → String → Prop} (h : Looks w x Q) (himp : ∀ a out, Q a out → R a out) :
    Looks w x R := by
  intro v hv
  obtain ⟨hsame, out, hout, hQ⟩ := h v hv
  exact ⟨hsame, out, hout, himp _ _ hQ⟩

theorem Asks.mono {Q R : α → Prop} (h : Asks w x Q) (himp : ∀ a, Q a → R a) : Asks w x R :=
  Looks.mono h fun a _ hQ => ⟨hQ.1, himp a hQ.2⟩

theorem asks_pure {a : α} : Asks w (pure a) (· = a) :=
  fun _ hv => ⟨hv, "", String.append_empty.symm, rfl, rfl⟩

theorem looks_bind {Q : α → String → Prop} {R : β → String → Prop} (h : Looks w x Q)
    (hf : ∀ a out, Q a out → Looks w (f a) fun b more => R b (out ++ more)) :
    Looks w (x >>= f) R := by
  intro v hv
  obtain ⟨hsame, out, hout, hQ⟩ := h v hv
  obtain ⟨hsame', more, hmore, hR⟩ := hf _ _ hQ _ hsame
  refine ⟨hsame', out ++ more, ?_, hR⟩
  rw [← String.append_assoc, ← hout]
  exact hmore

/-- A question before a step. -/
theorem looks_of_asks {Q : α → Prop} {R : β → String → Prop} (h : Asks w x Q)
    (hf : ∀ a, Q a → Looks w (f a) R) : Looks w (x >>= f) R := by
  refine looks_bind h ?_
  rintro a _ ⟨rfl, hQ⟩
  simpa using hf a hQ

theorem asks_bind {Q : α → Prop} {R : β → Prop} (h : Asks w x Q)
    (hf : ∀ a, Q a → Asks w (f a) R) : Asks w (x >>= f) R :=
  looks_of_asks h hf

theorem bind_apply {v : World} {a : α} (h : x w = (a, v)) : (x >>= f) w = f a v := by
  show f (x w).1 (x w).2 = f a v
  rw [h]

/-- A question before a step of any kind. -/
theorem Asks.before {Q : α → Prop} (h : Asks w x Q) {v : World} (hv : v.Resembles w)
    {P : β × World → Prop} (hf : ∀ a (v' : World), v'.Resembles w → v'.printed = v.printed → Q a →
      P (f a v')) : P ((x >>= f) v) := by
  obtain ⟨hsame, _, hout, rfl, hQ⟩ := h v hv
  rw [String.append_empty] at hout
  exact hf _ _ hsame hout hQ

/-- Steps whose results are determined, one after the other. -/
theorem exists_asks_bind (h : ∃ a, Asks w x (· = a)) (hf : ∀ a, ∃ b, Asks w (f a) (· = b)) :
    ∃ b, Asks w (x >>= f) (· = b) := by
  obtain ⟨a, ha⟩ := h
  obtain ⟨b, hb⟩ := hf a
  refine ⟨b, asks_bind ha ?_⟩
  rintro _ rfl
  exact hb

/-! ### Steps that may fail -/

/-- The outcome is a result of the given property, if there is one at all, and a failure otherwise. -/
def Exactly (S : α → Prop) (r : Except ε α) : Prop :=
  ∀ a, r = .ok a ↔ S a

theorem exactly_ok (a : α) : Exactly (ε := ε) (· = a) (.ok a) := fun _ =>
  ⟨fun h => (Except.ok.inj h).symm, fun h => congrArg _ h.symm⟩

theorem exactly_error {S : α → Prop} {e : ε} (h : ∀ a, ¬S a) : Exactly S (.error e) := fun a =>
  ⟨nofun, fun ha => (h a ha).elim⟩

theorem Exactly.congr {S T : α → Prop} {r : Except ε α} (h : Exactly S r) (hST : ∀ a, S a ↔ T a) :
    Exactly T r := fun a =>
  (h a).trans (hST a)

variable {y : Run Step α} {g : α → Run Step β}

theorem run_bind (y : Run Step α) (g : α → Run Step β) : (y >>= g).run =
    y.run >>= fun r => match r with
      | .ok a => (g a).run
      | .error e => pure (.error e) := by
  rw [ExceptT.run_bind]
  refine congrArg (y.run >>= ·) (funext fun r => ?_)
  cases r with
  | ok | error => rfl

theorem looks_run_bind {Q : Except String α → String → Prop} {R : Except String β → String → Prop}
    (h : Looks w y.run Q)
    (hok : ∀ a out, Q (.ok a) out → Looks w (g a).run fun b more => R b (out ++ more))
    (herror : ∀ e out, Q (.error e) out → R (.error e) out) : Looks w (y >>= g).run R := by
  rw [run_bind]
  refine looks_bind h fun r out hQ => ?_
  cases r with
  | ok a => exact hok a out hQ
  | error e =>
    refine Looks.mono asks_pure ?_
    rintro _ _ ⟨rfl, rfl⟩
    rw [String.append_empty]
    exact herror e out hQ

theorem run_lift_bind (x : Step α) (g : α → Run Step β) :
    ((liftM x : Run Step α) >>= g).run = x >>= fun a => (g a).run := by
  rw [run_bind]
  show (x >>= fun a => pure (Except.ok a)) >>= _ = _
  rw [bind_assoc]
  rfl

/-- A question that cannot fail before a step. -/
theorem looks_lift_bind {Q : α → Prop} {R : Except String β → String → Prop} (h : Asks w x Q)
    (hg : ∀ a, Q a → Looks w (g a).run R) : Looks w ((liftM x : Run Step α) >>= g).run R := by
  rw [run_lift_bind]
  exact looks_of_asks h hg

theorem asks_throw {S : α → Prop} (e : String) (h : ∀ a, ¬S a) :
    Asks w (throw e : Run Step α).run (Exactly S) := by
  refine asks_pure.mono ?_
  rintro _ rfl
  exact exactly_error h

theorem asks_return {S : α → Prop} {a : α} (h : ∀ b, b = a ↔ S b) :
    Asks w (pure a : Run Step α).run (Exactly S) := by
  refine asks_pure.mono ?_
  rintro _ rfl
  exact (exactly_ok a).congr h

theorem looks_return {R : Except String α → String → Prop} {a : α} (h : R (.ok a) "") :
    Looks w (pure a : Run Step α).run R := by
  refine Looks.mono asks_pure ?_
  rintro _ _ ⟨rfl, rfl⟩
  exact h

/-- Two questions that may fail, one after the other. -/
theorem asks_run_bind {S : α → Prop} {T : α → β → Prop} (h : Asks w y.run (Exactly S))
    (hg : ∀ a, S a → Asks w (g a).run (Exactly (T a))) :
    Asks w (y >>= g).run (Exactly fun b => ∃ a, S a ∧ T a b) := by
  refine looks_run_bind h ?_ ?_
  · rintro a _ ⟨rfl, hexact⟩
    have ha : S a := (hexact a).mp rfl
    refine Looks.mono (hg a ha) ?_
    rintro r _ ⟨rfl, hT⟩
    refine ⟨rfl, hT.congr fun b => ⟨fun hb => ⟨a, ha, hb⟩, ?_⟩⟩
    rintro ⟨a', ha', hb⟩
    obtain rfl := Except.ok.inj ((hexact a').mpr ha')
    exact hb
  · rintro e _ ⟨rfl, hexact⟩
    refine ⟨rfl, exactly_error ?_⟩
    rintro b ⟨a, ha, -⟩
    cases (hexact a).mpr ha

end Rules

/-! ## Operations -/

section Operations

variable {α : Type} (w : World)

theorem unlessRefused_apply (operation : World.Operation) (step : Step (Except Failure α))
    (v : World) : World.unlessRefused operation step v = match v.refuses v.tree operation with
      | some refusal => (.error refusal.failure, v)
      | none => step v := by
  unfold World.unlessRefused
  rw [bind_apply (rfl : (get : Step World) v = (v, v))]
  cases v.refuses v.tree operation with
  | some | none => rfl

theorem writing_apply (operation : World.Operation) (whole : World → World)
    (part : Nat → World → World) (v : World) :
    World.writing operation whole part v = match v.refuses v.tree operation with
      | some refusal => (.error refusal.failure, part refusal.written v)
      | none => (.ok (), whole v) := by
  unfold World.writing
  rw [bind_apply (rfl : (get : Step World) v = (v, v))]
  cases v.refuses v.tree operation with
  | some | none => rfl

/-- A change of the file tree that fails. -/
theorem change_of_error {change : FileTree → Except Failure (α × FileTree)} {v : World}
    {failure : Failure} (h : change v.tree = .error failure) :
    World.change change v = (.error failure, v) := by
  unfold World.change
  rw [bind_apply (rfl : (get : Step World) v = (v, v)), h]
  rfl

/-- A change of the file tree that succeeds. -/
theorem change_of_ok {change : FileTree → Except Failure (α × FileTree)} {v : World} {a : α}
    {tree : FileTree} (h : change v.tree = .ok (a, tree)) :
    World.change change v = (.ok a, v.withTree tree) := by
  unfold World.change
  rw [bind_apply (rfl : (get : Step World) v = (v, v)), h]
  rfl

/-- A question to the file tree that the system may refuse. -/
theorem asks_unlessRefused (operation : World.Operation) (question : FileTree → Except Failure α) :
    Asks w (World.unlessRefused operation (World.ask question))
      (· = w.answer w.tree operation (question w.tree)) := by
  intro v hv
  rw [unlessRefused_apply, hv.refuses, hv.tree, World.answer]
  cases w.refuses w.tree operation with
  | some refusal => exact ⟨hv, "", String.append_empty.symm, rfl, rfl⟩
  | none => exact ⟨hv, "", String.append_empty.symm, rfl, congrArg question hv.tree⟩

theorem asks_environment (name : String) :
    Asks w (Host.environment name : Step _) (· = w.environment.lookup name) := fun _ hv =>
  ⟨hv, "", String.append_empty.symm, rfl, congrArg (·.lookup name) hv.environment⟩

theorem asks_read (path : String) :
    Asks w (Host.read path : Step _) (· = w.reading path) :=
  asks_unlessRefused w _ _

theorem asks_size (path : String) :
    Asks w (Host.size path : Step _) (· = w.answer w.tree (.size path) (w.tree.size path)) :=
  asks_unlessRefused w _ _

theorem looks_print (text : String) : Looks w (Host.print text : Step _) fun r out =>
    w.Grants w.tree (.print text) ∧ r = .ok () ∧ out = text ∨
      ¬w.Grants w.tree (.print text) ∧ ∃ failure, r = .error failure := by
  intro v hv
  rw [show (Host.print text : Step _) v = _ from writing_apply _ _ _ v, hv.refuses, hv.tree,
    World.Grants]
  cases w.refuses w.tree (.print text) with
  | some refusal => exact ⟨hv.addPrinted _, _, rfl, .inr ⟨Option.some_ne_none refusal, _, rfl⟩⟩
  | none => exact ⟨hv.addPrinted text, _, rfl, .inl ⟨rfl, rfl, rfl⟩⟩

theorem asks_printError (text : String) : Asks w (Host.printError text : Step _) fun r =>
    w.Grants w.tree (.printError text) ∧ r = .ok () ∨
      ¬w.Grants w.tree (.printError text) ∧ ∃ failure, r = .error failure := by
  intro v hv
  rw [show (Host.printError text : Step _) v = _ from writing_apply _ _ _ v, hv.refuses, hv.tree,
    World.Grants]
  cases w.refuses w.tree (.printError text) with
  | some refusal =>
    exact ⟨hv.addErrors _, "", String.append_empty.symm, rfl,
      .inr ⟨Option.some_ne_none refusal, _, rfl⟩⟩
  | none => exact ⟨hv.addErrors text, "", String.append_empty.symm, rfl, .inl ⟨rfl, rfl⟩⟩

end Operations

/-! ## Reading and logging -/

/-- What is reported for the size of a file is the size of its content. -/
theorem size_of_read {tree : FileTree} {path : String} {content : ByteArray}
    (h : tree.read path = .ok content) : tree.size path = .ok content.size := by
  unfold FileTree.read at h
  unfold FileTree.size
  obtain ⟨location, hlocation, h⟩ := bind_eq_ok.mp h
  refine bind_eq_ok.mpr ⟨location, hlocation, ?_⟩
  cases hentry : tree.entry? location with
  | none =>
    rw [hentry] at h
    cases h
  | some entry =>
    rw [hentry] at h
    cases entry with
    | directory => cases h
    | file number => exact congrArg (fun c : ByteArray => Except.ok c.size) (Except.ok.inj h)

/-- A file is read if it is not too large. -/
theorem asks_readAtMost (w : World) (limit : Nat) (path : String) :
    Asks w (readAtMost limit path : Step _) (Exactly fun content =>
      w.Reads path content ∧ content.size ≤ limit) := by
  have fails : ∀ failure, (∀ content, w.Reads path content → limit < content.size) →
      Asks w (pure (.error failure) : Step (Except ReadFailure ByteArray))
        (Exactly fun content => w.Reads path content ∧ content.size ≤ limit) := by
    intro failure h
    refine asks_pure.mono ?_
    rintro _ rfl
    exact exactly_error fun content hcontent => Nat.not_le_of_lt (h _ hcontent.1) hcontent.2
  refine asks_bind (asks_size w path) ?_
  rintro _ rfl
  cases hsize : w.answer w.tree (.size path) (w.tree.size path) with
  | error failure =>
    refine fails _ fun content hreads => ?_
    rw [World.answer_of_grants hreads.size, size_of_read hreads.content] at hsize
    cases hsize
  | ok size =>
    obtain ⟨hgrants, hsize⟩ := World.answer_eq_ok_iff.mp hsize
    have hsize' : ∀ content, w.Reads path content → size = content.size :=
      fun content hreads => Except.ok.inj (hsize.symm.trans (size_of_read hreads.content))
    by_cases hlimit : limit < size
    · simp only [if_pos hlimit]
      exact fails _ fun content hreads => hsize' content hreads ▸ hlimit
    · simp only [if_neg hlimit]
      refine asks_bind (asks_read w path) ?_
      rintro _ rfl
      cases hread : w.reading path with
      | error failure =>
        refine fails _ fun content hreads => ?_
        rw [World.reading, World.answer_of_grants hreads.read, hreads.content] at hread
        cases hread
      | ok content =>
        obtain ⟨hgrants', hread⟩ := World.answer_eq_ok_iff.mp hread
        have hunique : ∀ content', w.Reads path content' → content' = content :=
          fun content' hreads => Except.ok.inj (hreads.content.symm.trans hread)
        dsimp only
        split
        · rename_i hsize
          exact fails _ fun content' hreads => hunique content' hreads ▸ hsize
        · rename_i hsize
          refine asks_pure.mono ?_
          rintro _ rfl content'
          constructor
          · intro heq
            obtain rfl := Except.ok.inj heq
            exact ⟨⟨hgrants, hgrants', hread⟩, Nat.le_of_not_lt hsize⟩
          · rintro ⟨hreads, -⟩
            rw [hunique content' hreads]

/-- A logger whose lines are not refused, be it that they go to a file or to the terminal. -/
def Logger.Writes (logger : Logger World.Handle) (w : World) : Prop :=
  w.Logs logger.allows (logger.file?.map (·.path))

/-- A logger that writes to the terminal, where its lines are not refused. -/
structure Logger.ToTerminal (logger : Logger World.Handle) (w : World) : Prop where
  file : logger.file? = none
  logs : w.Logs logger.allows none

theorem Logger.ToTerminal.writes {logger : Logger World.Handle} {w : World} (h : logger.ToTerminal w) :
    logger.Writes w := by
  rw [Writes, h.file]
  exact h.logs

theorem Logger.ToTerminal.withTree {logger : Logger World.Handle} {w : World}
    (h : logger.ToTerminal w) (tree : FileTree) : logger.ToTerminal (w.withTree tree) :=
  ⟨h.file, h.logs⟩

/-- A logger that lets no event pass. -/
def Logger.silent : Logger World.Handle :=
  ⟨fun _ => false, none⟩

theorem Logger.silent_toTerminal (w : World) : Logger.silent.ToTerminal w :=
  ⟨rfl, fun _ _ => nofun⟩

section Logging

variable [Libraries] {w v : World} {logger : Logger World.Handle}

/-- Logging an event prints no results and changes no file but that of the log. -/
theorem noteOne_run (h : logger.Writes w) (event : Log.Event) (hv : v.Resembles (w.withTree v.tree)) :
    ∃ v', (noteOne logger event : Run Step Unit).run v = (.ok (), v') ∧
      v'.Resembles (w.withTree v'.tree) ∧ v'.printed = v.printed ∧ (v'.tree = v.tree ∨
        ∃ handle ∈ logger.file?, ∃ content, v'.tree = v.tree.setContent handle.number content) := by
  suffices hlog : ∃ v', (logger.log event : Step _) v = (.ok (), v') ∧
      v'.Resembles (w.withTree v'.tree) ∧ v'.printed = v.printed ∧ (v'.tree = v.tree ∨
        ∃ handle ∈ logger.file?, ∃ content, v'.tree = v.tree.setContent handle.number content) by
    obtain ⟨v', hrun, hv'⟩ := hlog
    refine ⟨v', ?_, hv'⟩
    unfold noteOne
    rw [run_lift_bind, bind_apply hrun]
    rfl
  unfold Logger.log
  by_cases hallows : logger.allows event = true
  · have hgrants := h v.tree event hallows
    have htime : v.time = w.time := hv.time
    rw [if_pos hallows, bind_apply (rfl : (Host.time : Step String) v = (v.time, v)), htime]
    cases hfile : logger.file? with
    | none =>
      rw [hfile] at hgrants
      have hgrants' : v.refuses v.tree (.printError (event.line w.time)) = none := by
        rw [hv.refuses]
        exact hgrants
      refine ⟨World.addErrors (event.line w.time) v, (writing_apply _ _ _ v).trans ?_,
        hv.addErrors _, rfl, .inl rfl⟩
      rw [hgrants']
    | some handle =>
      rw [hfile] at hgrants
      have hgrants' : v.refuses v.tree (.extend handle.path (event.line w.time).toUTF8) = none := by
        rw [hv.refuses]
        exact hgrants
      refine ⟨World.extendFile handle (event.line w.time).toUTF8 v, (writing_apply _ _ _ v).trans ?_,
        hv.withTrees _, rfl, .inr ⟨handle, rfl, _, rfl⟩⟩
      rw [hgrants']
  · rw [if_neg hallows]
    exact ⟨v, rfl, hv, rfl, .inl rfl⟩

/-- A logger that writes to the terminal prints no results. -/
theorem asks_note (h : logger.ToTerminal w) (events : List Log.Event) :
    Asks w (note logger events : Run Step Unit).run (· = .ok ()) := by
  have hone : ∀ event, Asks w (noteOne logger event : Run Step Unit).run (· = .ok ()) := by
    intro event v hv
    obtain ⟨v', hrun, hv', hprinted, htree⟩ := noteOne_run h.writes event hv.withTree
    have hsame : v'.tree = v.tree := by
      rcases htree with htree | ⟨handle, hhandle, -⟩
      · exact htree
      · rw [h.file] at hhandle
        cases hhandle
    rw [hrun]
    exact ⟨⟨hsame.trans hv.tree, hv'.environment, hv'.time, hv'.runNumber, hv'.refuses⟩, "",
      hprinted.trans String.append_empty.symm, rfl, rfl⟩
  induction events with
  | nil => exact asks_pure
  | cons event events ih =>
    refine looks_run_bind (hone event) ?_ ?_
    · rintro _ _ ⟨rfl, -⟩
      exact Looks.mono ih fun _ _ h => ⟨by simp [h.1], h.2⟩
    · rintro e _ ⟨-, h⟩
      cases h

theorem looks_note_bind {α : Type} (h : logger.ToTerminal w) (events : List Log.Event)
    {g : Unit → Run Step α} {R : Except String α → String → Prop} (hg : Looks w (g ()).run R) :
    Looks w (note logger events >>= g).run R := by
  refine looks_run_bind (asks_note h events) ?_ ?_
  · rintro _ out ⟨rfl, -⟩
    simpa using hg
  · rintro e out ⟨-, h⟩
    cases h

end Logging

/-- A text is printed, or the run stops. -/
theorem looks_print_bind {α : Type} {w : World} {text : String} {g : Unit → Run Step α}
    {R : Except String α → String → Prop}
    (hg : w.Grants w.tree (.print text) → Looks w (g ()).run fun r more => R r (text ++ more))
    (hstop : ¬w.Grants w.tree (.print text) → ∀ e out, R (.error e) out) :
    Looks w (print text >>= g).run R := by
  have hprint : Looks w (print text : Run Step Unit).run fun r out =>
      w.Grants w.tree (.print text) ∧ r = .ok () ∧ out = text ∨
        ¬w.Grants w.tree (.print text) ∧ ∃ e, r = .error e := by
    unfold print
    rw [run_lift_bind]
    refine looks_bind (looks_print w text) ?_
    rintro _ out (⟨hgrants, rfl, rfl⟩ | ⟨hrefused, failure, rfl⟩)
    · refine Looks.mono asks_pure ?_
      rintro _ _ ⟨rfl, rfl⟩
      exact .inl ⟨hgrants, rfl, String.append_empty⟩
    · refine Looks.mono asks_pure ?_
      rintro _ _ ⟨rfl, rfl⟩
      exact .inr ⟨hrefused, _, rfl⟩
  refine looks_run_bind hprint ?_ ?_
  · rintro _ out (⟨hgrants, -, rfl⟩ | ⟨-, e, h⟩)
    · exact hg hgrants
    · cases h
  · rintro e out (⟨-, h, -⟩ | ⟨hrefused, -⟩)
    · cases h
    · exact hstop hrefused e out

/-- A text is printed where errors are shown, or the run stops. -/
theorem looks_printError_bind {α : Type} {w : World} {text : String} {g : Unit → Run Step α}
    {R : Except String α → String → Prop}
    (hg : w.Grants w.tree (.printError text) → Looks w (g ()).run R)
    (hstop : ¬w.Grants w.tree (.printError text) → ∀ e, R (.error e) "") :
    Looks w (printError text >>= g).run R := by
  have hprint : Asks w (printError text : Run Step Unit).run fun r =>
      w.Grants w.tree (.printError text) ∧ r = .ok () ∨
        ¬w.Grants w.tree (.printError text) ∧ ∃ e, r = .error e := by
    unfold printError
    rw [run_lift_bind]
    refine asks_bind (asks_printError w text) ?_
    rintro _ (⟨hgrants, rfl⟩ | ⟨hrefused, failure, rfl⟩)
    · exact asks_pure.mono fun _ h => .inl ⟨hgrants, h⟩
    · exact asks_pure.mono fun _ h => .inr ⟨hrefused, _, h⟩
  refine looks_run_bind hprint ?_ ?_
  · rintro _ out ⟨rfl, ⟨hgrants, -⟩ | ⟨-, e, h⟩⟩
    · simpa using hg hgrants
    · cases h
  · rintro e out ⟨rfl, ⟨-, h⟩ | ⟨hrefused, -⟩⟩
    · cases h
    · exact hstop hrefused e

end CommandLine

end CausalRules
