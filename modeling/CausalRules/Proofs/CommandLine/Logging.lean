import CausalRules.Proofs.CommandLine.Agreement
import CausalRules.Proofs.FileTree.Contents

/-!
# Logging makes no other difference

A run that logs does the same as one that does not, but for the content of the log file, if it reads
other files and renames other files, and the lines of the log can be written. The two runs are followed
side by side. What the system refuses does not depend on the files, so it is the same for both.

- `Twins`: worlds that agree but for the content of a log file.
- `Alike`: steps that have the same result in such worlds and leave such worlds.
  `alike_bind`, `alike_run_bind`: steps one after the other.
- `alike_note`: logging, and not logging.
- `alike_prepare`, `alike_replaceFile`, `alike_compileTarget`, `alike_runCompile`: one lemma for each
  function.
-/

namespace CausalRules.CommandLine

open World (Step)
open FileTree (Twin Outcomes Misses)

/-! ## Rules -/

/-- Worlds like the given one that agree but for the content of the file with the given number, if there
is one. It has no more names in them than in a tree before. -/
structure Twins (number? : Option Nat) (origin : FileTree) (w v v' : World) : Prop where
  tree : Twin number? origin v.tree v'.tree
  left : v.Resembles (w.withTree v.tree)
  right : v'.Resembles (w.withTree v'.tree)

/-- In worlds that agree so, the steps have the same result, and they leave such worlds. -/
def Alike (number? : Option Nat) (origin : FileTree) (w : World) {α : Type} (x y : Step α) : Prop :=
  ∀ v v' : World, Twins number? origin w v v' →
    (x v).1 = (y v').1 ∧ Twins number? origin w (x v).2 (y v').2

section Rules

variable {α β : Type} {number? : Option Nat} {origin : FileTree} {w : World} {x y : Step α}
  {f g : α → Step β}

theorem alike_pure (a : α) : Alike number? origin w (pure a) (pure a) := fun _ _ h => ⟨rfl, h⟩

theorem alike_bind (h : Alike number? origin w x y)
    (hf : ∀ a, Alike number? origin w (f a) (g a)) :
    Alike number? origin w (x >>= f) (y >>= g) := by
  intro v v' hv
  obtain ⟨hsame, hafter⟩ := h v v' hv
  show (f (x v).1 (x v).2).1 = (g (y v').1 (y v').2).1 ∧
    Twins number? origin w (f (x v).1 (x v).2).2 (g (y v').1 (y v').2).2
  rw [← hsame]
  exact hf _ _ _ hafter

theorem alike_run_bind {x y : Run Step α} {f g : α → Run Step β}
    (h : Alike number? origin w x.run y.run)
    (hf : ∀ a, Alike number? origin w (f a).run (g a).run) :
    Alike number? origin w (x >>= f).run (y >>= g).run := by
  rw [run_bind, run_bind]
  refine alike_bind h fun r => ?_
  cases r with
  | ok a => exact hf a
  | error e => exact alike_pure _

theorem alike_lift_bind {f g : α → Run Step β} (h : Alike number? origin w x y)
    (hf : ∀ a, Alike number? origin w (f a).run (g a).run) :
    Alike number? origin w ((liftM x : Run Step α) >>= f).run
      ((liftM y : Run Step α) >>= g).run := by
  rw [run_lift_bind, run_lift_bind]
  exact alike_bind h hf

end Rules

/-! ## Operations -/

section Operations

variable {α : Type} {number? : Option Nat} {origin : FileTree} {w : World}

/-- The system refuses the same in both worlds. -/
theorem Twins.refuses_eq {v v' : World} (h : Twins number? origin w v v') (hsteady : w.Steady)
    (operation : World.Operation) :
    v.refuses v.tree operation = w.refuses w.tree operation ∧
      v'.refuses v'.tree operation = w.refuses w.tree operation := by
  have hleft : v.refuses = w.refuses := h.left.refuses
  have hright : v'.refuses = w.refuses := h.right.refuses
  rw [hleft, hright]
  exact ⟨hsteady.same _ _ _, hsteady.same _ _ _⟩

theorem alike_unlessRefused (hsteady : w.Steady) (operation : World.Operation)
    {x y : Step (Except Failure α)} (h : Alike number? origin w x y) :
    Alike number? origin w (World.unlessRefused operation x) (World.unlessRefused operation y) := by
  intro v v' hv
  obtain ⟨hleft, hright⟩ := hv.refuses_eq hsteady operation
  rw [unlessRefused_apply, unlessRefused_apply, hleft, hright]
  cases w.refuses w.tree operation with
  | some refusal => exact ⟨rfl, hv⟩
  | none => exact h v v' hv

theorem alike_ask {question : FileTree → α}
    (h : ∀ tree tree', Twin number? origin tree tree' → question tree = question tree') :
    Alike number? origin w (World.ask question) (World.ask question) := fun _ _ hv =>
  ⟨h _ _ hv.tree, hv⟩

theorem alike_change {change : FileTree → Except Failure (α × FileTree)}
    (h : ∀ tree tree', Twin number? origin tree tree' →
      Outcomes (fun a b => b.1 = a.1 ∧ Twin number? origin a.2 b.2) (change tree) (change tree')) :
    Alike number? origin w (World.change change) (World.change change) := by
  intro v v' hv
  have houtcomes := h _ _ hv.tree
  generalize hleft : change v.tree = r at houtcomes
  generalize hright : change v'.tree = r' at houtcomes
  cases houtcomes with
  | error failure =>
    rw [change_of_error hleft, change_of_error hright]
    exact ⟨rfl, hv⟩
  | ok hchanged =>
    obtain ⟨hsame, htree⟩ := hchanged
    rw [change_of_ok hleft, change_of_ok hright]
    exact ⟨congrArg Except.ok hsame.symm, htree,
      ⟨rfl, hv.left.environment, hv.left.time, hv.left.runNumber, hv.left.refuses⟩,
      ⟨rfl, hv.right.environment, hv.right.time, hv.right.runNumber, hv.right.refuses⟩⟩

theorem alike_changeOnly (hsteady : w.Steady) (operation : World.Operation)
    {change : FileTree → Except Failure FileTree}
    (h : ∀ tree tree', Twin number? origin tree tree' →
      Outcomes (Twin number? origin) (change tree) (change tree')) :
    Alike number? origin w (World.unlessRefused operation (World.changeOnly change))
      (World.unlessRefused operation (World.changeOnly change)) :=
  alike_unlessRefused hsteady operation (alike_change fun tree tree' htwin =>
    Outcomes.map (h tree tree' htwin) fun _ _ htwin' => ⟨rfl, htwin'⟩)

theorem alike_create (hsteady : w.Steady) (path : String) :
    Alike number? origin w (Host.create path : Step _) (Host.create path) :=
  alike_unlessRefused hsteady (.create path) (alike_change fun tree tree' htwin =>
    Outcomes.map (htwin.create path) fun a b h => ⟨by rw [h.1], h.2⟩)

theorem alike_extend (hsteady : w.Steady) (handle : World.Handle) (content : ByteArray) :
    Alike number? origin w (Host.extend handle content : Step _) (Host.extend handle content) := by
  intro v v' hv
  obtain ⟨hleft, hright⟩ := hv.refuses_eq hsteady (.extend handle.path content)
  have happend : ∀ more, Twins number? origin w (World.extendFile handle more v)
      (World.extendFile handle more v') := fun more =>
    ⟨hv.tree.append handle.number more,
      ⟨rfl, hv.left.environment, hv.left.time, hv.left.runNumber, hv.left.refuses⟩,
      ⟨rfl, hv.right.environment, hv.right.time, hv.right.runNumber, hv.right.refuses⟩⟩
  rw [show (Host.extend handle content : Step _) v = _ from writing_apply _ _ _ v,
    show (Host.extend handle content : Step _) v' = _ from writing_apply _ _ _ v', hleft, hright]
  cases w.refuses w.tree (.extend handle.path content) with
  | some refusal => exact ⟨rfl, happend _⟩
  | none => exact ⟨rfl, happend _⟩

theorem alike_sync (hsteady : w.Steady) (handle : World.Handle) :
    Alike number? origin w (Host.sync handle : Step _) (Host.sync handle) :=
  alike_unlessRefused hsteady _ (alike_pure _)

theorem alike_read (hsteady : w.Steady) {path : String} (hpath : origin.Misses number? path) :
    Alike number? origin w (Host.read path : Step _) (Host.read path) :=
  alike_unlessRefused hsteady _ (alike_ask fun _ _ h => (h.agree.read_eq (h.misses hpath)).symm)

theorem alike_size (hsteady : w.Steady) {path : String} (hpath : origin.Misses number? path) :
    Alike number? origin w (Host.size path : Step _) (Host.size path) :=
  alike_unlessRefused hsteady _ (alike_ask fun _ _ h => (h.agree.size_eq (h.misses hpath)).symm)

theorem alike_isDirectory (hsteady : w.Steady) (path : String) :
    Alike number? origin w (Host.isDirectory path : Step _) (Host.isDirectory path) :=
  alike_bind (alike_unlessRefused hsteady _ (alike_ask fun _ _ h =>
    congrArg _ (h.agree.sameDirectories.isDirectory_eq path).symm)) fun _ => alike_pure _

theorem alike_runNumber_bind {β : Type} {f g : Nat → Step β}
    (h : Alike number? origin w (f w.runNumber) (g w.runNumber)) :
    Alike number? origin w (Host.runNumber >>= f) (Host.runNumber >>= g) := by
  intro v v' hv
  have hleft : v.runNumber = w.runNumber := hv.left.runNumber
  have hright : v'.runNumber = w.runNumber := hv.right.runNumber
  rw [bind_apply (rfl : (Host.runNumber : Step Nat) v = (v.runNumber, v)),
    bind_apply (rfl : (Host.runNumber : Step Nat) v' = (v'.runNumber, v')), hleft, hright]
  exact h v v' hv

/-- Printing, wherever it goes. -/
theorem alike_writing (hsteady : w.Steady) (operation : World.Operation) {whole : World → World}
    {part : Nat → World → World}
    (hwhole : ∀ v, (whole v).tree = v.tree ∧ (whole v).Resembles v)
    (hpart : ∀ count v, (part count v).tree = v.tree ∧ (part count v).Resembles v) :
    Alike number? origin w (World.writing operation whole part)
      (World.writing operation whole part) := by
  have keeps : ∀ {v v' u u' : World}, Twins number? origin w v v' → u.tree = v.tree ∧ u.Resembles v →
      u'.tree = v'.tree ∧ u'.Resembles v' → Twins number? origin w u u' := by
    rintro v v' u u' hv ⟨htree, hu⟩ ⟨htree', hu'⟩
    refine ⟨?_, ?_, ?_⟩
    · rw [htree, htree']
      exact hv.tree
    · rw [htree]
      exact hu.trans hv.left
    · rw [htree']
      exact hu'.trans hv.right
  intro v v' hv
  obtain ⟨hleft, hright⟩ := hv.refuses_eq hsteady operation
  rw [writing_apply, writing_apply, hleft, hright]
  cases w.refuses w.tree operation with
  | some refusal => exact ⟨rfl, keeps hv (hpart _ _) (hpart _ _)⟩
  | none => exact ⟨rfl, keeps hv (hwhole _) (hwhole _)⟩

theorem alike_print (hsteady : w.Steady) (text : String) :
    Alike number? origin w (Host.print text : Step _) (Host.print text) :=
  alike_writing hsteady _ (fun _ => ⟨rfl, rfl, rfl, rfl, rfl, rfl⟩)
    fun _ _ => ⟨rfl, rfl, rfl, rfl, rfl, rfl⟩

theorem alike_printError (hsteady : w.Steady) (text : String) :
    Alike number? origin w (Host.printError text : Step _) (Host.printError text) :=
  alike_writing hsteady _ (fun _ => ⟨rfl, rfl, rfl, rfl, rfl, rfl⟩)
    fun _ _ => ⟨rfl, rfl, rfl, rfl, rfl, rfl⟩

theorem alike_print_bind (hsteady : w.Steady) (text : String) {f g : Unit → Run Step α}
    (hf : Alike number? origin w (f ()).run (g ()).run) :
    Alike number? origin w (print text >>= f).run (print text >>= g).run := by
  refine alike_run_bind (alike_lift_bind (alike_print hsteady text) fun r => ?_) fun _ => hf
  cases r with
  | ok | error => exact alike_pure _

theorem alike_printError_bind (hsteady : w.Steady) (text : String)
    {f g : Unit → Run Step α} (hf : Alike number? origin w (f ()).run (g ()).run) :
    Alike number? origin w (printError text >>= f).run (printError text >>= g).run := by
  refine alike_run_bind (alike_lift_bind (alike_printError hsteady text) fun r => ?_) fun _ => hf
  cases r with
  | ok | error => exact alike_pure _

end Operations

/-! ## Logging -/

section Logging

variable [Libraries] {number? : Option Nat} {origin : FileTree} {w : World}
  {logger : Logger World.Handle}

/-- What a logger does makes no difference but to the file with the given number. -/
structure Logger.Aside (logger : Logger World.Handle) (w : World) (number? : Option Nat) : Prop where
  writes : logger.Writes w
  file : ∀ handle ∈ logger.file?, handle.number ∈ number?

/-- Logging, and not logging. -/
theorem alike_note (h : logger.Aside w number?) (events : List Log.Event) :
    Alike number? origin w (note logger events : Run Step Unit).run
      (note Logger.silent events : Run Step Unit).run := by
  have hone : ∀ event, Alike number? origin w (noteOne logger event : Run Step Unit).run
      (noteOne Logger.silent event : Run Step Unit).run := by
    intro event v v' hv
    obtain ⟨u, hrun, hu, -, htree⟩ := noteOne_run h.writes event hv.left
    rw [hrun]
    refine ⟨rfl, ?_, hu, hv.right⟩
    rcases htree with htree | ⟨handle, hhandle, content, htree⟩
    · rw [htree]
      exact hv.tree
    · rw [htree]
      exact hv.tree.setContent_left (h.file handle hhandle) content
  induction events with
  | nil => exact alike_pure _
  | cons event events ih => exact alike_run_bind (hone event) fun _ => ih

theorem alike_note_bind {α : Type} (h : logger.Aside w number?) (events : List Log.Event)
    {f g : Unit → Run Step α} (hf : Alike number? origin w (f ()).run (g ()).run) :
    Alike number? origin w (note logger events >>= f).run
      (note Logger.silent events >>= g).run :=
  alike_run_bind (alike_note h events) fun _ => hf

end Logging

/-! ## What is read -/

section Reading

variable {number? : Option Nat} {origin : FileTree} {w : World}

theorem alike_readAtMost (hsteady : w.Steady) (limit : Nat) {path : String}
    (hpath : origin.Misses number? path) :
    Alike number? origin w (readAtMost limit path : Step _) (readAtMost limit path) := by
  refine alike_bind (alike_size hsteady hpath) fun r => ?_
  cases r with
  | error failure => exact alike_pure _
  | ok size =>
    dsimp only
    split
    · exact alike_pure _
    · refine alike_bind (alike_read hsteady hpath) fun r => ?_
      cases r with
      | error failure => exact alike_pure _
      | ok content =>
        dsimp only
        split
        · exact alike_pure _
        · exact alike_pure _

theorem alike_loadTemplate (hsteady : w.Steady) (target : Target) {file? : Option String}
    (templates : Templates)
    (hfile : ∀ path ∈ file?, origin.Misses number? path) :
    Alike number? origin w (loadTemplate target file? templates : Run Step _).run
      (loadTemplate target file? templates : Run Step _).run := by
  cases file? with
  | none => exact alike_pure _
  | some path =>
    unfold loadTemplate
    refine alike_lift_bind ?_ fun r => ?_
    · unfold readTemplate
      refine alike_bind (alike_readAtMost hsteady _ (hfile path rfl)) fun r => ?_
      split
      · exact alike_pure _
      · exact alike_pure _
      · split
        · exact alike_pure _
        · exact alike_pure _
    · split
      · exact alike_pure _
      · exact alike_pure _

theorem alike_loadTemplates (hsteady : w.Steady) {settings : TemplateSettings}
    (htemplates : ∀ path ∈ settings.paths, origin.Misses number? path) :
    Alike number? origin w (loadTemplates settings : Run Step _).run
      (loadTemplates settings : Run Step _).run := by
  refine alike_run_bind (alike_loadTemplate hsteady _ _ fun path hpath => ?_) fun templates =>
    alike_loadTemplate hsteady _ _ fun path hpath => ?_
  · exact htemplates path (List.mem_append_left _ (Option.mem_toList.mpr hpath))
  · exact htemplates path (List.mem_append_right _ (Option.mem_toList.mpr hpath))

variable [Libraries] {logger : Logger World.Handle}

theorem alike_readSource (hsteady : w.Steady) (hlogger : logger.Aside w number?) (limits : Limits)
    {source : Source}
    (hsource : ∀ path ∈ source.paths, origin.Misses number? path) :
    Alike number? origin w (readSource logger limits source : Run Step _).run
      (readSource Logger.silent limits source : Run Step _).run := by
  cases source with
  | text text =>
    by_cases hsize : limits.maxInputBytes < text.utf8ByteSize
    · simp only [readSource, if_pos hsize]
      exact alike_pure _
    · simp only [readSource, if_neg hsize]
      exact alike_pure _
  | file path =>
    unfold readSource
    have hpath := hsource path (List.mem_singleton_self _)
    refine alike_lift_bind (alike_readAtMost hsteady _ hpath) fun r => ?_
    cases r with
    | error failure => exact alike_pure _
    | ok content =>
      dsimp only
      split
      · exact alike_pure _
      · exact alike_note_bind hlogger _ (alike_pure _)

theorem alike_readProgram (hlogger : logger.Aside w number?) (limits : Limits) (source : SourceText) :
    Alike number? origin w (readProgram logger limits source : Run Step _).run
      (readProgram Logger.silent limits source : Run Step _).run := by
  unfold readProgram
  refine alike_note_bind hlogger _ ?_
  split
  · exact alike_pure _
  · exact alike_pure _

end Reading

/-! ## What is written -/

section Writing

variable {number? : Option Nat} {origin : FileTree} {w : World} {job : Job}

theorem alike_makeFirst (hsteady : w.Steady) (paths : List String) :
    Alike number? origin w (makeFirst paths : Step _) (makeFirst paths) := by
  have hmake : ∀ path, Alike number? origin w (Host.makeDirectory path : Step _)
      (Host.makeDirectory path) := fun path =>
    alike_changeOnly hsteady _ fun _ _ h => h.makeDirectory path
  have hunless : ∀ path failure, Alike number? origin w
      (makeFirst.unlessDirectory path failure : Step _) (makeFirst.unlessDirectory path failure) := by
    intro path failure
    refine alike_bind (alike_isDirectory hsteady path) fun r => ?_
    split
    · exact alike_pure _
    · exact alike_pure _
  induction paths with
  | nil => exact alike_pure _
  | cons path above ih =>
    refine alike_bind (hmake path) fun r => ?_
    split
    · exact alike_pure _
    · refine alike_bind ih fun r => ?_
      cases r with
      | error failure => exact alike_pure _
      | ok =>
        refine alike_bind (hmake path) fun r => ?_
        cases r with
        | ok => exact alike_pure _
        | error failure => exact hunless path failure
    · exact hunless path _

theorem alike_writeFile (hsteady : w.Steady) (path : String) (content : ByteArray) :
    Alike number? origin w (Host.write path content : Step _) (Host.write path content) := by
  refine alike_bind (alike_create hsteady path) fun r => ?_
  cases r with
  | error failure => exact alike_pure _
  | ok handle =>
    refine alike_bind (alike_extend hsteady handle content) fun r => ?_
    cases r with
    | error failure => exact alike_pure _
    | ok => exact alike_sync hsteady handle

/-- A file is replaced alike if the temporary one is not the log file. -/
theorem alike_replaceFile (hsteady : w.Steady) {path : String} (content : ByteArray)
    (htemporary : origin.Misses number? (temporaryPath path w.runNumber)) :
    Alike number? origin w (replaceFile path content : Step _) (replaceFile path content) := by
  have hremove : Alike number? origin w (Host.remove (temporaryPath path w.runNumber) : Step _)
      (Host.remove (temporaryPath path w.runNumber)) :=
    alike_changeOnly hsteady _ fun _ _ h => h.remove _
  have hrename : Alike number? origin w
      (Host.rename (temporaryPath path w.runNumber) path : Step _)
      (Host.rename (temporaryPath path w.runNumber) path) :=
    alike_changeOnly hsteady _ fun _ _ h => h.rename htemporary path
  refine alike_runNumber_bind (alike_bind (alike_writeFile hsteady _ content) fun r => ?_)
  cases r with
  | error failure =>
    refine alike_bind (alike_pure _) fun r => ?_
    cases r with
    | ok => exact alike_pure _
    | error failure => exact alike_bind hremove fun _ => alike_pure _
  | ok =>
    refine alike_bind hrename fun r => ?_
    cases r with
    | ok => exact alike_pure _
    | error failure => exact alike_bind hremove fun _ => alike_pure _

theorem alike_write (hsteady : w.Steady) (target : Target)
    (htemporary : origin.Misses number? (job.temporary w.runNumber target)) :
    Alike number? origin w (job.write target : Step _) (job.write target) := by
  unfold Job.write
  split
  · exact alike_pure _
  · refine alike_bind (alike_replaceFile hsteady _ htemporary) fun r => ?_
    cases r with
    | ok | error => exact alike_pure _

variable [Libraries] {logger : Logger World.Handle}

theorem alike_compileTarget (hsteady : w.Steady) (hlogger : logger.Aside w number?) (target : Target)
    (htemporary : origin.Misses number? (job.temporary w.runNumber target)) :
    Alike number? origin w (job.compileTarget logger target : Run Step _).run
      (job.compileTarget Logger.silent target : Run Step _).run := by
  unfold Job.compileTarget
  refine alike_note_bind hlogger _ (alike_lift_bind (alike_write hsteady target htemporary) fun r => ?_)
  cases r with
  | ok => exact alike_note_bind hlogger _ (alike_print_bind hsteady _ (alike_pure _))
  | error error => exact alike_note_bind hlogger _ (alike_printError_bind hsteady _ (alike_pure _))

theorem alike_compileTargets (hsteady : w.Steady) (hlogger : logger.Aside w number?)
    {targets : List Target}
    (htemporary : ∀ target ∈ targets, origin.Misses number? (job.temporary w.runNumber target)) :
    Alike number? origin w (targets.mapM (job.compileTarget logger) : Run Step _).run
      (targets.mapM (job.compileTarget Logger.silent) : Run Step _).run := by
  induction targets with
  | nil => exact alike_pure _
  | cons target targets ih =>
    rw [List.mapM_cons, List.mapM_cons]
    have hfirst := htemporary target List.mem_cons_self
    refine alike_run_bind (alike_compileTarget hsteady hlogger target hfirst)
      fun verdict => alike_run_bind (ih fun other hother => ?_) fun verdicts => alike_pure _
    exact htemporary other (List.mem_cons_of_mem _ hother)

/-- **Logging to a file makes no difference** to a run that compiles, if it reads other files and its
temporary files are others. -/
theorem alike_runCompile (hsteady : w.Steady) (hlogger : logger.Aside w number?)
    {settings : Settings} {source : Source}
    {outDir? : Option String} {targets : List Target}
    (hsource : ∀ path ∈ source.paths ++ settings.templates.paths, origin.Misses number? path)
    (htemporary : ∀ target ∈ targets, origin.Misses number? (temporaryPath
      (Path.join (outDir?.getD settings.output.dir) (settings.output.fileOf target)) w.runNumber)) :
    Alike number? origin w
      (runCompile logger settings source outDir? targets : Run Step _).run
      (runCompile Logger.silent settings source outDir? targets : Run Step _).run := by
  unfold runCompile prepare
  simp only [bind_assoc, pure_bind]
  refine alike_run_bind (alike_readSource hsteady hlogger _ fun path hpath =>
    hsource path (List.mem_append_left _ hpath)) fun text => ?_
  refine alike_run_bind (alike_readProgram hlogger _ text) fun program => ?_
  refine alike_run_bind (alike_loadTemplates hsteady fun path hpath =>
    hsource path (List.mem_append_right _ hpath)) fun templates => ?_
  refine alike_lift_bind (alike_makeFirst hsteady _) fun r => ?_
  cases r with
  | error failure => exact alike_pure _
  | ok =>
    exact alike_run_bind (alike_compileTargets hsteady hlogger htemporary) fun verdicts => alike_pure _

end Writing

end CausalRules.CommandLine
