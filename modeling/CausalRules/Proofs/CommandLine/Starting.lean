import CausalRules.Proofs.CommandLine.Logging

/-!
# How runs start

A run loads its settings and opens its log file, and only then carries out its command. What it does
from there on is what a run does that logs nothing, if the lines of the log can be written.

- `Opens`: the log file is opened. `Opens.keeps`, `Opens.again`: nothing else is changed by that, and it
  can be done again later.
- `Invocation.Starts`: the settings are loaded and logging is set up. `Starts.again`: a later run starts
  too, if the system refuses the same.
- `run_cases`: a run that gets so far, or does not.
- `Task.Fares`: what becomes of a run that compiles; `fares_run`.
-/

namespace CausalRules.CommandLine

open World (Step)
open FileTree (Keeps)

/-! ## Starting -/

/-- The log file, if there is one, is opened. -/
inductive Opens (w : World) : Option String → Option World.Handle → FileTree → Prop
  | terminal : Opens w none none w.tree
  | file {path : String} {number : Nat} {opened : FileTree}
    (h : w.answer w.tree (.openToAppend path) (w.tree.openFile path) = .ok (number, opened)) :
    Opens w (some path) (some ⟨number, path⟩) opened

/-- The number of the file that is open, if there is one. -/
def number? (handle? : Option World.Handle) : Option Nat :=
  handle?.map (·.number)

/-- The settings are loaded and logging is set up. -/
structure Invocation.Starts [Libraries] (invocation : Invocation) (w : World) (settings : Settings)
    (handle? : Option World.Handle) (opened : FileTree) : Prop where
  version : invocation.showVersion = false
  loads : invocation.Loads w settings
  filter : (Libraries.filter (invocation.directive w settings)).isSome
  opens : Opens w (invocation.logFile?.or settings.log.file?) handle? opened

section Opening

variable {w v : World} {handle? handle?' : Option World.Handle} {opened opened' : FileTree}
  {file? : Option String}

theorem Opens.path_eq (h : Opens w file? handle? opened) : handle?.map (·.path) = file? := by
  cases h with
  | terminal | file => rfl

theorem Opens.unique (h : Opens w file? handle? opened) (h' : Opens w file? handle?' opened') :
    handle?' = handle? ∧ opened' = opened := by
  cases h with
  | terminal =>
    cases h'
    exact ⟨rfl, rfl⟩
  | file hopen =>
    cases h' with
    | file hopen' =>
      obtain ⟨rfl, rfl⟩ := Prod.mk.inj (Except.ok.inj (hopen'.symm.trans hopen))
      exact ⟨rfl, rfl⟩

theorem Opens.of_eq (h : Opens w file? handle? opened) (htree : v.tree = w.tree)
    (hrefuses : v.refuses = w.refuses) : Opens v file? handle? opened := by
  cases h with
  | terminal => exact htree ▸ .terminal
  | file hopen =>
    refine .file ?_
    rw [World.answer, htree, hrefuses]
    exact hopen

/-- Opening the log file changes nothing else. -/
theorem Opens.keeps (h : Opens w file? handle? opened) (hsound : w.tree.Sound) :
    Keeps (fun l => ∃ number ∈ number? handle?, opened.entry? l = some (.file number)) (fun _ => False)
      w.tree opened ∧ opened.Sound := by
  cases h with
  | terminal => exact ⟨.refl _, hsound⟩
  | file hopen =>
    have hready : FileTree.Ready (fun _ => False) w.tree := ⟨hsound, nofun⟩
    obtain ⟨hentry, hkeeps, hready⟩ :=
      FileTree.openFile_spec hready (World.answer_eq_ok_iff.mp hopen).2
    refine ⟨hkeeps.mono ?_ fun _ => id, hready.sound⟩
    rintro l rfl
    exact ⟨_, rfl, hentry⟩

theorem Opens.twin (h : Opens w file? handle? opened) (hsound : w.tree.Sound) :
    FileTree.Twin (number? handle?) opened opened opened := by
  refine ⟨.refl _ _, rfl, fun _ _ _ => id, ?_⟩
  cases h with
  | terminal => exact nofun
  | file hopen =>
    have hready : FileTree.Ready (fun _ => False) w.tree := ⟨hsound, nofun⟩
    obtain ⟨hentry, -, hready⟩ :=
      FileTree.openFile_spec hready (World.answer_eq_ok_iff.mp hopen).2
    rintro _ ⟨⟩
    exact hready.sound _ _ hentry

/-- A file is opened again after a run, as long as it was not replaced. -/
theorem Opens.again (h : Opens w file? handle? opened) (hsteady : w.Steady)
    (hrefuses : v.refuses = w.refuses) (hsound : w.tree.Sound)
    (hplace : v.tree.workingDirectory = opened.workingDirectory)
    (hmono : ∀ l, opened.isDirectoryAt l = true → v.tree.isDirectoryAt l = true)
    (hentry : ∀ number ∈ number? handle?, ∀ l, opened.entry? l = some (.file number) →
      v.tree.entry? l = some (.file number)) : Opens v file? handle? v.tree := by
  have hkeeps := (h.keeps hsound).1
  cases h with
  | terminal => exact .terminal
  | file hopen =>
    obtain ⟨hgrants, hopen⟩ := World.answer_eq_ok_iff.mp hopen
    have hready : FileTree.Ready (fun _ => False) w.tree := ⟨hsound, nofun⟩
    refine .file (World.answer_eq_ok_iff.mpr ⟨?_, ?_⟩)
    · rw [World.Grants, hrefuses]
      exact hsteady.grants_iff.mpr hgrants
    · refine FileTree.openFile_again hopen (hplace.trans hkeeps.workingDirectory)
        (fun l hl => hmono l (hkeeps.directory l hl)) ?_
      exact hentry _ rfl _ (FileTree.openFile_spec hready hopen).1

theorem openToAppend_apply (path : String) (v : World) :
    (Host.openToAppend path : Step (Except Failure World.Handle)) v =
      match v.answer v.tree (.openToAppend path) (v.tree.openFile path) with
      | .error failure => (.error failure, v)
      | .ok (number, opened) => (.ok ⟨number, path⟩, v.withTree opened) := by
  have hrun : (World.opening path (·.openFile path) : Step (Except Failure World.Handle)) v =
      match v.tree.openFile path with
      | .error failure => (.error failure, v)
      | .ok (number, opened) => (.ok ⟨number, path⟩, v.withTree opened) := by
    unfold World.opening World.change
    rw [bind_apply (rfl : (get : Step World) v = (v, v))]
    beta_reduce
    cases v.tree.openFile path with
    | error | ok => rfl
  rw [show (Host.openToAppend path : Step _) v = _ from unlessRefused_apply _ _ v, hrun, World.answer]
  cases v.refuses v.tree (.openToAppend path) with
  | some | none => rfl

/-- What comes of reading a file is decided by what it holds, and by what the system refuses. -/
theorem reading_congr {path : String} (hsteady : w.Steady) (hrefuses : v.refuses = w.refuses)
    (hread : w.Grants w.tree (.read path) → v.tree.read path = w.tree.read path) :
    v.reading path = w.reading path := by
  have hsame : v.refuses v.tree (.read path) = w.refuses w.tree (.read path) := by
    rw [hrefuses]
    exact hsteady.same _ _ _
  rw [World.reading, World.reading, World.answer, World.answer, hsame]
  rcases w.grants_or_refused w.tree (.read path) with hgrants | ⟨refusal, hrefused⟩
  · rw [hgrants]
    exact hread hgrants
  · rw [hrefused]

/-- The settings file is as it was, or still missing. -/
theorem settingsRead_of_keeps {replaced made : Location → Prop} (hsteady : w.Steady)
    (hrefuses : v.refuses = w.refuses) (h : Keeps replaced made w.tree v.tree) {path : String}
    (hread : (∃ content, w.reading path = .ok content) ∨
      path = Settings.defaultFileName ∧ w.reading path = .error .notFound)
    (hreplaced : ¬replaced (w.tree.spot path))
    (hmade : w.tree.read path = .error .notFound → ¬made (w.tree.spot path)) :
    v.reading path = w.reading path := by
  refine reading_congr hsteady hrefuses fun hgrants => ?_
  rw [World.reading, World.answer_of_grants hgrants] at hread
  rcases hread with ⟨content, hread⟩ | ⟨rfl, hread⟩
  · rw [hread]
    exact FileTree.read_of_keeps h hread hreplaced
  · have hcheck : FileTree.checkPath Settings.defaultFileName = .ok () := by decide +kernel
    have hnames : Path.names Settings.defaultFileName = ["causal-compiler.toml"] := by
      decide +kernel
    rw [hread]
    exact FileTree.missing_of_keeps h hcheck hnames hread hreplaced (hmade hread)

variable [Libraries]

theorem start_apply (directive : String) (file? : Option String) (v : World) :
    (Logger.start directive file? : Step (Except LoggingError (Logger World.Handle))) v =
      match Libraries.filter directive, file? with
      | none, _ => (.error (.invalidFilter directive), v)
      | some allows, none => (.ok ⟨allows, none⟩, v)
      | some allows, some path =>
        match v.answer v.tree (.openToAppend path) (v.tree.openFile path) with
        | .error failure => (.error (.unopened path failure), v)
        | .ok (number, opened) => (.ok ⟨allows, some ⟨number, path⟩⟩, v.withTree opened) := by
  unfold Logger.start
  cases Libraries.filter directive with
  | none => rfl
  | some allows =>
    cases file? with
    | none => rfl
    | some path =>
      have hopen := openToAppend_apply path v
      dsimp only [Logger.openFile]
      rw [bind_assoc, bind_apply hopen]
      cases v.answer v.tree (.openToAppend path) (v.tree.openFile path) with
      | error | ok => rfl

end Opening

section Starting

variable [Libraries] {w v : World} {invocation : Invocation} {settings settings' : Settings}
  {handle? handle?' : Option World.Handle} {opened opened' : FileTree}

theorem Invocation.Starts.unique (h : invocation.Starts w settings handle? opened)
    (h' : invocation.Starts w settings' handle?' opened') :
    settings' = settings ∧ handle?' = handle? ∧ opened' = opened := by
  obtain rfl := Except.ok.inj (h'.loads.symm.trans h.loads)
  exact ⟨rfl, h.opens.unique h'.opens⟩

/-- The log file of a run stands at a location, once it was opened. -/
def Invocation.LogsAt (invocation : Invocation) (w : World) (l : Location) : Prop :=
  ∃ settings handle opened, invocation.Starts w settings (some handle) opened ∧
    opened.entry? l = some (.file handle.number)

theorem logsAt_iff (h : invocation.Starts w settings handle? opened) {l : Location} :
    invocation.LogsAt w l ↔ ∃ number ∈ number? handle?, opened.entry? l = some (.file number) := by
  constructor
  · rintro ⟨_, handle, _, hstarts, hentry⟩
    obtain ⟨-, rfl, rfl⟩ := hstarts.unique h
    exact ⟨handle.number, rfl, hentry⟩
  · rintro ⟨number, hnumber, hentry⟩
    obtain ⟨handle, rfl, rfl⟩ := Option.map_eq_some_iff.mp hnumber
    exact ⟨settings, handle, opened, h, hentry⟩

theorem Invocation.Starts.again (h : invocation.Starts w settings handle? opened)
    (henvironment : v.environment = w.environment)
    (hread : v.reading (invocation.settingsPath w) = w.reading (invocation.settingsPath w))
    (hopens : Opens v (invocation.logFile?.or settings.log.file?) handle? opened') :
    invocation.Starts v settings handle? opened' := by
  refine ⟨h.version, loads_of_read_eq henvironment hread h.loads, ?_, hopens⟩
  rw [Invocation.directive, henvironment]
  exact h.filter

end Starting

/-! ## Whole runs -/

section Whole

variable [Libraries] {w : World} {invocation : Invocation}

/-- What is printed for the version. -/
def versionReport : String :=
  message "main.version" [("version", version)] ++ "\n"

/-- A run that only prints the version. -/
theorem run_of_version (hversion : invocation.showVersion = true) :
    (((invocation.run : Run Step _).run w).1 = .ok .success ↔
      w.Grants w.tree (.print versionReport)) ∧
      ((invocation.run : Run Step _).run w).2.tree = w.tree := by
  have hprints : Looks w (invocation.run : Run Step _).run fun r _ =>
      r = .ok .success ↔ w.Grants w.tree (.print versionReport) := by
    unfold Invocation.run
    rw [if_pos hversion]
    exact looks_print_bind (fun hgrants => looks_return (iff_of_true rfl hgrants))
      fun hrefused _ _ => ⟨nofun, fun hgrants => (hrefused hgrants).elim⟩
  obtain ⟨hsame, _, -, hsuccess⟩ := hprints w (.refl w)
  exact ⟨hsuccess, hsame.tree⟩

/-- A run that is to carry out a command does so once the settings are loaded and logging is set up. If
that fails, it stops with a message. -/
theorem run_cases {command : Command} (hversion : invocation.showVersion = false)
    (hcommand : invocation.command? = some command) {P : Except String Verdict × World → Prop}
    (hstarted : ∀ settings handle? opened allows (v : World),
      invocation.Starts w settings handle? opened →
      Libraries.filter (invocation.directive w settings) = some allows →
      v.Resembles (w.withTree opened) →
      P ((note ⟨allows, handle?⟩ [.started (invocation.directive w settings)] >>= fun _ =>
        command.run ⟨allows, handle?⟩ settings : Run Step _).run v))
    (hstopped : (∀ settings handle? opened, ¬invocation.Starts w settings handle? opened) →
      ∀ e (v : World), v.Resembles w → P (.error e, v)) :
    P ((invocation.run : Run Step _).run w) := by
  unfold Invocation.run
  rw [if_neg (by simp [hversion]), run_lift_bind]
  refine (asks_loadSettings w _).before (.refl w) fun loaded v hv _ hloaded => ?_
  cases loaded with
  | error error =>
    exact hstopped (fun _ _ _ h => nomatch hloaded.trans h.loads) _ v hv
  | ok settings =>
    have hloads : invocation.Loads w settings := hloaded.symm
    have hunique : ∀ {other handle? opened}, invocation.Starts w other handle? opened →
        other = settings := fun h => Except.ok.inj (h.loads.symm.trans hloads)
    dsimp only
    rw [pure_bind, run_lift_bind]
    refine (asks_environment w _).before hv ?_
    rintro _ v hv _ rfl
    have hdirective : Log.directive (invocation.logLevel?.map (·.name)) settings.log.level?
        (w.environment.lookup Log.environmentName)
        (invocation.logFile?.or settings.log.file?).isSome = invocation.directive w settings := rfl
    rw [run_lift_bind, hdirective, bind_apply (start_apply ..), hcommand]
    cases hfilter : Libraries.filter (invocation.directive w settings) with
    | none =>
      refine hstopped (fun other _ _ h => ?_) _ v hv
      obtain rfl := hunique h
      have hsome := h.filter
      rw [hfilter] at hsome
      cases hsome
    | some allows =>
      have hsome : (Libraries.filter (invocation.directive w settings)).isSome :=
        Option.isSome_of_eq_some hfilter
      cases hfile : invocation.logFile?.or settings.log.file? with
      | none =>
        exact hstarted settings none w.tree allows v
          ⟨hversion, hloads, hsome, hfile ▸ .terminal⟩ hfilter hv
      | some path =>
        have hanswer : v.answer v.tree (.openToAppend path) (v.tree.openFile path) =
            w.answer w.tree (.openToAppend path) (w.tree.openFile path) := by
          rw [World.answer, World.answer, hv.refuses, hv.tree]
        dsimp only
        rw [hanswer]
        cases hopen : w.answer w.tree (.openToAppend path) (w.tree.openFile path) with
        | error failure =>
          refine hstopped (fun other handle? opened h => ?_) _ v hv
          obtain rfl := hunique h
          have hopens := h.opens
          rw [hfile] at hopens
          cases hopens with
          | file hopened => cases hopen.symm.trans hopened
        | ok found =>
          obtain ⟨number, opened⟩ := found
          exact hstarted settings (some ⟨number, path⟩) opened allows (v.withTree opened)
            ⟨hversion, hloads, hsome, hfile ▸ .file hopen⟩ hfilter
            (hv.withTrees opened)

end Whole

namespace Task

/-- The task for other targets. -/
def only (task : Task) (targets : List Target) : Task :=
  { task with targets := targets }

/-- What becomes of a run that compiles some targets. Once it has started it does what a run would do
that logs nothing, with files that differ in the content of the log file at most. -/
structure Fares [Libraries] (task : Task) (targets : List Target) (w : World)
    (result : Except String Verdict × World) : Prop where
  started : ∀ handle? opened, task.invocation.Starts w task.settings handle? opened →
    ∀ origin tree, FileTree.Twin (number? handle?) origin opened tree →
      (∀ path ∈ task.source.paths ++ task.settings.templates.paths,
        origin.Misses (number? handle?) path) →
      (∀ target ∈ targets,
        origin.Misses (number? handle?) (temporaryPath (task.output target) w.runNumber)) →
      ∃ tree', Ends (w.withTree tree) task.settings task.source task.outDir? targets
          (result.1 = .ok .success) tree' ∧
        FileTree.Twin (number? handle?) origin result.2.tree tree'
  stopped : (∀ settings handle? opened, ¬task.invocation.Starts w settings handle? opened) →
    (result.1 = .ok .success ↔
      task.invocation.showVersion = true ∧ w.Grants w.tree (.print versionReport)) ∧
    result.2.tree = w.tree

section Fares

variable [Libraries] {task : Task} {w : World} {targets : List Target}

/-- Which command is given makes no difference to how a run starts. -/
theorem starts_compiling {settings : Settings} {handle? : Option World.Handle} {opened : FileTree} :
    (task.only targets).compiling.Starts w settings handle? opened ↔
      task.invocation.Starts w settings handle? opened :=
  ⟨fun h => ⟨h.version, h.loads, h.filter, h.opens⟩, fun h => ⟨h.version, h.loads, h.filter, h.opens⟩⟩

theorem fares_run (hsteady : w.Steady) (hlogged : task.invocation.Logged w) :
    task.Fares targets w (((task.only targets).compiling.run : Run Step _).run w) := by
  cases hversion : task.invocation.showVersion with
  | true =>
    have hversion' : (task.only targets).compiling.showVersion = true := hversion
    obtain ⟨hsuccess, htree⟩ := run_of_version (w := w) hversion'
    constructor
    · intro handle? opened hstarts
      cases hversion.symm.trans hstarts.version
    · exact fun _ => ⟨hsuccess.trans (and_iff_right hversion).symm, htree⟩
  | false =>
    have hcommand : (task.only targets).compiling.command? =
      some (.compile task.source task.outDir? targets) := rfl
    have hversion' : (task.only targets).compiling.showVersion = false := hversion
    refine run_cases hversion' hcommand ?_ ?_
    · intro settings base? base allows v hstarts hallows hv
      rw [starts_compiling] at hstarts
      constructor
      · intro handle? opened hstarts' origin tree htwin hreads htemporary
        obtain ⟨rfl, rfl, rfl⟩ := hstarts.unique hstarts'
        let logger : Logger World.Handle := ⟨allows, handle?⟩
        have haside : logger.Aside w (number? handle?) := by
          refine ⟨?_, fun handle hhandle => Option.mem_map_of_mem _ hhandle⟩
          have hlogs : w.Logs allows (task.invocation.logFile?.or task.settings.log.file?) :=
            hlogged task.settings allows hstarts.loads hallows
          rwa [← hstarts.opens.path_eq] at hlogs
        let events : List Log.Event :=
          [.started ((task.only targets).compiling.directive w task.settings)]
        have halike : Alike (number? handle?) origin w
            (note logger events >>= fun _ => runCompile logger task.settings task.source
              task.outDir? targets : Run Step _).run
            (note Logger.silent events >>= fun _ => runCompile Logger.silent task.settings
              task.source task.outDir? targets : Run Step _).run :=
          alike_note_bind haside _ (alike_runCompile hsteady haside hreads htemporary)
        have hends : Changes (w.withTree tree) (note Logger.silent events >>= fun _ =>
            runCompile Logger.silent task.settings task.source task.outDir? targets :
              Run Step _).run fun r tree' =>
            Ends (w.withTree tree) task.settings task.source task.outDir? targets
              (r = .ok .success) tree' :=
          changes_note_bind (Logger.silent_toTerminal _) _
            (changes_runCompile (Logger.silent_toTerminal _) _ _ _ _)
        obtain ⟨hsame, hafter⟩ := halike v (w.withTree tree)
          ⟨hv.tree ▸ htwin, hv.withTree, .refl _⟩
        obtain ⟨-, hends⟩ := hends _ (.refl _)
        rw [← hsame] at hends
        exact ⟨_, hends, hafter.tree⟩
      · exact fun hstops => (hstops _ _ _ hstarts).elim
    · intro hstops e v hv
      constructor
      · exact fun _ _ hstarts => (hstops _ _ _ (starts_compiling.mpr hstarts)).elim
      · exact fun _ => ⟨⟨nofun, fun h => nomatch hversion.symm.trans h.1⟩, hv.tree⟩

end Fares

end Task

end CausalRules.CommandLine
