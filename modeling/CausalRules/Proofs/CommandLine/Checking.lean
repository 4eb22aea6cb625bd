import CausalRules.Proofs.CommandLine.Looking
import CausalRules.Proofs.Rule

/-!
# Checking is exact and changes nothing

`check` succeeds exactly if the files hold the scripts that would be made from the files as they are,
and the lines that say so can be printed. Whatever comes of it, no file is changed.

- `World.HoldsText`: a file can be read, holds a text and is not too large.
- `Source.Gives`, `TemplatesGive`: what is made of the files that are read.
- `UpToDate`: every script is made, its file holds it, and that can be reported.
- `looks_runCheck`: one spec for each function that checks; `check_exact` for a whole run.
-/

namespace CausalRules

/-- The file that a path names can be read and holds the text, which has at most the given number of
bytes. -/
structure World.HoldsText (w : World) (limit : Nat) (path text : String) : Prop where
  reads : w.Reads path text.toUTF8
  size : text.utf8ByteSize ≤ limit

namespace CommandLine

open World (Step)

theorem fromUTF8?_eq_some_iff {content : ByteArray} {text : String} :
    String.fromUTF8? content = some text ↔ content = text.toUTF8 := by
  unfold String.fromUTF8?
  split
  · rename_i h
    constructor
    · intro heq
      rw [← Option.some.inj heq]
      rfl
    · rintro rfl
      rfl
  · rename_i h
    constructor
    · exact nofun
    · rintro rfl
      exact (h text.isValidUTF8).elim

/-! ## What is read -/

/-- The text of a program that a source gives. -/
def Source.Gives (w : World) (limits : Limits) : Source → SourceText → Prop
  | .text given, found =>
    found = ⟨message "input.text_label" [], given⟩ ∧ given.utf8ByteSize ≤ limits.maxInputBytes
  | .file path, found =>
    found.label = path ∧ w.HoldsText limits.maxInputBytes path found.text

/-- The templates that are used: those of the files, as far as files are named. -/
def TemplatesGive (w : World) (settings : TemplateSettings) (templates : Templates) : Prop :=
  ∃ facility? imitation?,
    Option.Rel (w.HoldsText Template.maxBytes) settings.facility? facility? ∧
    Option.Rel (w.HoldsText Template.maxBytes) settings.imitation? imitation? ∧
    Templates.ofGiven facility? imitation? = .ok templates

section Reading

variable {w : World}

/-- Either the file holds a text that is not too large, which is read, or it does not and no text is
read. -/
theorem asks_readText (w : World) (limit : Nat) (path : String) :
    Asks w (readAtMost limit path : Step _) fun r =>
      (∃ content text, r = .ok content ∧ String.fromUTF8? content = some text ∧
        ∀ other, other = text ↔ w.HoldsText limit path other) ∨
      (∀ content, r = .ok content → String.fromUTF8? content = none) ∧
        ∀ other, ¬w.HoldsText limit path other := by
  refine (asks_readAtMost w limit path).mono fun r hr => ?_
  by_cases h : ∃ text, w.HoldsText limit path text
  · obtain ⟨text, hholds⟩ := h
    refine .inl ⟨text.toUTF8, text, (hr _).mpr ⟨hholds.reads, hholds.size⟩,
      fromUTF8?_eq_some_iff.mpr rfl, fun other => ⟨fun heq => heq ▸ hholds, fun hother => ?_⟩⟩
    have heq : other.toUTF8 = text.toUTF8 :=
      Except.ok.inj (hother.reads.content.symm.trans hholds.reads.content)
    exact (Option.some.inj ((fromUTF8?_eq_some_iff.mpr rfl).symm.trans
      (fromUTF8?_eq_some_iff.mpr heq.symm))).symm
  · refine .inr ⟨fun content hcontent => ?_, fun other hother => h ⟨other, hother⟩⟩
    obtain ⟨hread, hsize⟩ := (hr content).mp hcontent
    rw [Option.eq_none_iff_forall_not_mem]
    intro text htext
    obtain rfl := fromUTF8?_eq_some_iff.mp htext
    exact h ⟨text, hread, hsize⟩

theorem asks_readTemplate (w : World) (path : String) :
    Asks w (readTemplate path : Step _)
      (Exactly fun text => w.HoldsText Template.maxBytes path text) := by
  unfold readTemplate
  refine asks_bind (asks_readText w _ path) fun r hr => ?_
  rcases hr with ⟨content, text, rfl, htext, hholds⟩ | ⟨hnone, hfails⟩
  · dsimp only
    rw [htext]
    refine asks_pure.mono ?_
    rintro _ rfl
    exact (exactly_ok text).congr hholds
  · cases r with
    | error failure =>
      cases failure with
      | failure | tooLarge =>
        refine asks_pure.mono ?_
        rintro _ rfl
        exact exactly_error hfails
    | ok content =>
      dsimp only
      rw [hnone content rfl]
      refine asks_pure.mono ?_
      rintro _ rfl
      exact exactly_error hfails

/-- The template of a file is used if the file holds one. -/
theorem asks_loadTemplate (w : World) (target : Target) (file? : Option String)
    (templates : Templates) :
    Asks w (loadTemplate target file? templates : Run Step _).run (Exactly fun found =>
      ∃ text?, Option.Rel (w.HoldsText Template.maxBytes) file? text? ∧
        templates.setIfGiven target text? = .ok found) := by
  cases file? with
  | none =>
    refine asks_return fun found => ?_
    constructor
    · rintro rfl
      exact ⟨none, .none, rfl⟩
    · rintro ⟨_, ⟨⟩, hset⟩
      exact (Except.ok.inj hset).symm
  | some path =>
    unfold loadTemplate
    refine looks_lift_bind (asks_readTemplate w path) fun r hr => ?_
    have hused : ∀ found, (∃ text, r = .ok text ∧ templates.set target text = .ok found) ↔
        ∃ text?, Option.Rel (w.HoldsText Template.maxBytes) (some path) text? ∧
          templates.setIfGiven target text? = .ok found := by
      intro found
      constructor
      · rintro ⟨text, heq, hset⟩
        exact ⟨some text, .some ((hr text).mp heq), hset⟩
      · rintro ⟨_, ⟨hholds⟩, hset⟩
        exact ⟨_, (hr _).mpr hholds, hset⟩
    simp only [← hused]
    cases r with
    | error error => exact asks_throw _ nofun
    | ok text =>
      have hbind : (Except.ok text).bind (templates.set target) = templates.set target text := rfl
      rw [hbind]
      cases hset : templates.set target text with
      | ok templates' =>
        refine asks_return fun found => ⟨?_, ?_⟩
        · rintro rfl
          exact ⟨text, rfl, hset⟩
        · rintro ⟨_, ⟨⟩, hfound⟩
          exact Except.ok.inj (hfound.symm.trans hset)
      | error error =>
        refine asks_throw _ ?_
        rintro found ⟨_, ⟨⟩, hfound⟩
        rw [hset] at hfound
        cases hfound

theorem asks_loadTemplates (w : World) (settings : TemplateSettings) :
    Asks w (loadTemplates settings : Run Step _).run (Exactly (TemplatesGive w settings)) := by
  refine (asks_run_bind (asks_loadTemplate w _ _ _) fun templates _ =>
    asks_loadTemplate w _ _ templates).mono fun r hr => hr.congr fun found => ?_
  constructor
  · rintro ⟨templates, ⟨facility?, hfacility, hset⟩, imitation?, himitation, hset'⟩
    exact ⟨facility?, imitation?, hfacility, himitation, bind_eq_ok.mpr ⟨templates, hset, hset'⟩⟩
  · rintro ⟨facility?, imitation?, hfacility, himitation, hgiven⟩
    obtain ⟨templates, hset, hset'⟩ := bind_eq_ok.mp hgiven
    exact ⟨templates, ⟨facility?, hfacility, hset⟩, imitation?, himitation, hset'⟩

variable [Libraries] {logger : Logger World.Handle}

theorem asks_readSource (hlogger : logger.ToTerminal w) (limits : Limits) (source : Source) :
    Asks w (readSource logger limits source : Run Step _).run
      (Exactly (source.Gives w limits)) := by
  cases source with
  | text text =>
    by_cases hsize : limits.maxInputBytes < text.utf8ByteSize
    · simp only [readSource, if_pos hsize]
      exact asks_throw _ fun _ h => Nat.not_le_of_lt hsize h.2
    · simp only [readSource, if_neg hsize]
      exact asks_return fun _ => ⟨fun h => ⟨h, Nat.le_of_not_lt hsize⟩, And.left⟩
  | file path =>
    unfold readSource
    refine looks_lift_bind (asks_readText w _ path) fun r hr => ?_
    rcases hr with ⟨content, text, rfl, htext, hholds⟩ | ⟨hnone, hfails⟩
    · dsimp only
      rw [htext]
      refine looks_note_bind hlogger _ (asks_return fun found => ?_)
      rw [Source.Gives, ← hholds]
      constructor
      · rintro rfl
        exact ⟨rfl, rfl⟩
      · rintro ⟨rfl, rfl⟩
        rfl
    · cases r with
      | error failure => exact asks_throw _ fun _ h => hfails _ h.2
      | ok content =>
        dsimp only
        rw [hnone content rfl]
        exact asks_throw _ fun _ h => hfails _ h.2

theorem asks_readProgram (hlogger : logger.ToTerminal w) (limits : Limits) (source : SourceText) :
    Asks w (readProgram logger limits source : Run Step _).run
      (Exactly fun program => Program.read limits source.text = .ok program) := by
  unfold readProgram
  refine looks_note_bind hlogger _ ?_
  cases Program.read limits source.text with
  | ok program =>
    exact asks_return fun _ => ⟨fun h => congrArg _ h.symm, fun h => (Except.ok.inj h).symm⟩
  | error error => exact asks_throw _ nofun

/-- What scripts are made from is what the files give. -/
structure Job.From (w : World) (settings : Settings) (source : Source)
    (outDir? : Option String) (job : Job) : Prop where
  inForce : job.settings = settings
  given : source.Gives w settings.limits job.source
  read : Program.read settings.limits job.source.text = .ok job.program
  loaded : TemplatesGive w settings.templates job.templates
  placed : job.outDir = outDir?.getD settings.output.dir

theorem asks_prepare (hlogger : logger.ToTerminal w) (settings : Settings) (source : Source)
    (outDir? : Option String) :
    Asks w (prepare logger settings source outDir? : Run Step _).run
      (Exactly (Job.From w settings source outDir?)) := by
  refine (asks_run_bind (asks_readSource hlogger settings.limits source) fun text _ =>
    asks_run_bind (asks_readProgram hlogger settings.limits text) fun program _ =>
      asks_run_bind (asks_loadTemplates w settings.templates) fun templates _ =>
        asks_return fun _ => Iff.rfl).mono fun r hr => hr.congr fun job => ?_
  constructor
  · rintro ⟨text, hsource, program, hprogram, templates, htemplates, rfl⟩
    exact ⟨rfl, hsource, hprogram, htemplates, rfl⟩
  · intro h
    refine ⟨job.source, h.given, job.program, h.read, job.templates, h.loaded, ?_⟩
    rw [← h.placed, ← h.inForce]

/-- There is no choice in what scripts are made from. -/
theorem Job.From.unique {settings : Settings} {source : Source} {outDir? : Option String}
    {job other : Job} (h : Job.From w settings source outDir? job)
    (hother : Job.From w settings source outDir? other) : other = job := by
  obtain ⟨-, _, -, -, hexact⟩ :=
    asks_prepare (Logger.silent_toTerminal w) settings source outDir? w (.refl w)
  exact Except.ok.inj (((hexact other).mpr hother).symm.trans ((hexact job).mpr h))

end Reading

/-! ## What is compared -/

/-- A target's script is made, and its file holds it. -/
def Job.Current (w : World) (job : Job) (target : Target) : Prop :=
  ∃ script, job.program.script job.templates target = .ok script ∧
    w.HoldsText Job.maxScriptBytes (job.path target) script

/-- All that is read is there and is right, the file of every target holds its script, and the lines
that say so can be printed. -/
def UpToDate (w : World) (settings : Settings) (source : Source) (outDir? : Option String)
    (targets : List Target) : Prop :=
  ∃ job, Job.From w settings source outDir? job ∧ ∀ target ∈ targets, job.Current w target ∧
    w.Grants w.tree (.print (job.report "check.up_to_date" target))

/-- The lines that say that the files of targets are up to date. -/
def Job.currentReports (job : Job) (targets : List Target) : String :=
  String.join (targets.map (job.report "check.up_to_date"))

section Comparing

variable {w : World}

theorem Job.script_eq_ok {job : Job} {target : Target} {script : String} :
    job.script target = .ok script ↔ job.program.script job.templates target = .ok script := by
  unfold Job.script
  cases job.program.script job.templates target with
  | ok | error => simp [Except.mapError]

/-- A script is compared with what its file holds. -/
theorem asks_compare (w : World) (job : Job) (target : Target) (script : String) :
    Asks w (job.compare target script : Run Step _).run fun r =>
      (r = .ok (.success, "check.up_to_date") ∧
        w.HoldsText Job.maxScriptBytes (job.path target) script) ∨
      (∀ key, r ≠ .ok (.success, key)) ∧
        ¬w.HoldsText Job.maxScriptBytes (job.path target) script := by
  unfold Job.compare
  refine looks_lift_bind (asks_readText w _ _) fun r hr => ?_
  rcases hr with ⟨content, text, rfl, htext, hholds⟩ | ⟨hnone, hfails⟩
  · dsimp only
    rw [htext]
    by_cases heq : text = script
    · rw [if_pos (congrArg some heq)]
      exact asks_pure.mono fun _ h => .inl ⟨h, (hholds script).mp heq.symm⟩
    · rw [if_neg fun h => heq (Option.some.inj h)]
      refine asks_pure.mono ?_
      rintro _ rfl
      exact .inr ⟨nofun, fun h => heq ((hholds script).mpr h).symm⟩
  · have hfailure : ∀ other : Except String (Verdict × String),
        (∀ key, other ≠ .ok (.success, key)) → Asks w (pure other) fun r =>
          (r = .ok (.success, "check.up_to_date") ∧
            w.HoldsText Job.maxScriptBytes (job.path target) script) ∨
          (∀ key, r ≠ .ok (.success, key)) ∧
            ¬w.HoldsText Job.maxScriptBytes (job.path target) script := by
      intro other hother
      refine asks_pure.mono ?_
      rintro _ rfl
      exact .inr ⟨hother, hfails script⟩
    dsimp only
    split
    · rw [hnone _ rfl, if_neg nofun]
      exact hfailure _ nofun
    · exact hfailure _ nofun
    · exact hfailure _ nofun

variable [Libraries] {logger : Logger World.Handle}

/-- A target passes exactly if its file holds its script and the line that says so is printed. -/
theorem looks_checkTarget (hlogger : logger.ToTerminal w) (job : Job) (drift : Bool)
    (target : Target) :
    Looks w (job.checkTarget logger drift target : Run Step _).run fun r out =>
      (r = .ok .success ↔ job.Current w target ∧
        w.Grants w.tree (.print (job.report "check.up_to_date" target))) ∧
        (r = .ok .success → out = job.report "check.up_to_date" target) := by
  unfold Job.checkTarget
  refine looks_note_bind hlogger _ ?_
  cases hscript : job.script target with
  | error error =>
    have hcurrent : ¬job.Current w target := by
      rintro ⟨script, hmade, -⟩
      rw [Job.script_eq_ok.mpr hmade] at hscript
      cases hscript
    exact looks_printError_bind
      (fun _ => looks_return ⟨⟨nofun, fun h => (hcurrent h.1).elim⟩, nofun⟩)
      fun _ _ => ⟨⟨nofun, fun h => (hcurrent h.1).elim⟩, nofun⟩
  | ok script =>
    have hcurrent : job.Current w target ↔
        w.HoldsText Job.maxScriptBytes (job.path target) script := by
      constructor
      · rintro ⟨_, hmade, hholds⟩
        obtain rfl := Except.ok.inj (hscript.symm.trans (Job.script_eq_ok.mpr hmade))
        exact hholds
      · exact fun hholds => ⟨script, Job.script_eq_ok.mp hscript, hholds⟩
    dsimp only
    refine looks_run_bind (asks_compare w job target script) ?_ ?_
    · rintro ⟨verdict, key⟩ _ ⟨rfl, h⟩
      rw [hcurrent]
      rcases h with ⟨heq, hholds⟩ | ⟨hne, hnot⟩
      · obtain ⟨rfl, rfl⟩ := Prod.mk.inj (Except.ok.inj heq)
        refine looks_note_bind hlogger _ (looks_print_bind (fun hgrants => looks_return ?_)
          fun hrefused _ _ => ⟨⟨nofun, fun h => (hrefused h.2).elim⟩, nofun⟩)
        exact ⟨⟨fun _ => ⟨hholds, hgrants⟩, fun _ => rfl⟩, fun _ => by simp⟩
      · have hverdict : Except.ok verdict ≠ (.ok .success : Except String Verdict) := by
          intro heq
          obtain rfl := Except.ok.inj heq
          exact hne key rfl
        exact looks_note_bind hlogger _ (looks_print_bind
          (fun _ => looks_return ⟨⟨fun h => (hverdict h).elim, fun h => (hnot h.1).elim⟩,
            fun h => (hverdict h).elim⟩)
          fun _ _ _ => ⟨⟨nofun, fun h => (hnot h.1).elim⟩, nofun⟩)
    · rintro e out ⟨-, h⟩
      rcases h with ⟨heq, -⟩ | ⟨-, hnot⟩
      · cases heq
      · exact ⟨⟨nofun, fun h => (hnot (hcurrent.mp h.1)).elim⟩, nofun⟩

theorem looks_checkTargets (hlogger : logger.ToTerminal w) (job : Job) (verdict : Verdict)
    (targets : List Target) :
    Looks w (checkTargets logger job verdict targets : Run Step _).run fun r out =>
      (r = .ok .success ↔ verdict = .success ∧ ∀ target ∈ targets, job.Current w target ∧
        w.Grants w.tree (.print (job.report "check.up_to_date" target))) ∧
        (r = .ok .success → out = job.currentReports targets) := by
  induction targets generalizing verdict with
  | nil =>
    refine looks_return ?_
    exact ⟨⟨fun h => ⟨Except.ok.inj h, nofun⟩, fun h => congrArg _ h.1⟩, fun _ => rfl⟩
  | cons target targets ih =>
    unfold checkTargets
    refine looks_run_bind (looks_checkTarget hlogger job _ target) ?_ ?_
    · rintro next out ⟨hnext, hout⟩
      refine (ih _).mono ?_
      rintro r more ⟨hr, hmore⟩
      have hparts : Verdict.ofParts [verdict, next] = .success ↔
          verdict = .success ∧ next = .success := by
        cases verdict <;> cases next <;> decide
      have hnext' : next = .success ↔ job.Current w target ∧
          w.Grants w.tree (.print (job.report "check.up_to_date" target)) := by
        rw [← hnext]
        exact ⟨congrArg _, Except.ok.inj⟩
      rw [hr, hparts, List.forall_mem_cons, hnext', and_assoc]
      refine ⟨Iff.rfl, fun h => ?_⟩
      rw [hout (congrArg _ (hnext'.mpr h.2.1)),
        hmore (hr.mpr ⟨hparts.mpr ⟨h.1, hnext'.mpr h.2.1⟩, h.2.2⟩)]
      simp [Job.currentReports]
    · rintro e out ⟨h, -⟩
      exact ⟨⟨nofun, fun hall => nomatch h.mpr (hall.2 target (List.mem_cons_self ..))⟩, nofun⟩

theorem looks_runCheck (hlogger : logger.ToTerminal w) (settings : Settings) (source : Source)
    (outDir? : Option String) (targets : List Target) :
    Looks w (runCheck logger settings source outDir? targets : Run Step _).run fun r out =>
      (r = .ok .success ↔ UpToDate w settings source outDir? targets) ∧
        (r = .ok .success → ∀ job, Job.From w settings source outDir? job →
          out = job.currentReports targets) := by
  refine looks_run_bind (asks_prepare hlogger settings source outDir?) ?_ ?_
  · rintro job _ ⟨rfl, hjob⟩
    refine (looks_checkTargets hlogger job .success targets).mono ?_
    rintro r out ⟨hr, hout⟩
    have hfrom : ∀ other, Job.From w settings source outDir? other ↔ job = other := by
      intro other
      rw [← hjob other]
      exact ⟨Except.ok.inj, congrArg _⟩
    rw [UpToDate]
    simp only [hfrom, exists_eq_left']
    refine ⟨hr.trans (and_iff_right rfl), ?_⟩
    rintro h _ rfl
    simpa using hout h
  · rintro e _ ⟨rfl, hjob⟩
    refine ⟨⟨nofun, ?_⟩, nofun⟩
    rintro ⟨job, hfrom, -⟩
    cases (hjob job).mpr hfrom

end Comparing

/-! ## A whole run -/

section Run

variable [Libraries] {w : World}

/-- The settings that an invocation is carried out with in a world. -/
def Invocation.Loads (invocation : Invocation) (w : World) (settings : Settings) : Prop :=
  ((loadSettings invocation.settingsFile? : Step _) w).1 = .ok settings

instance (invocation : Invocation) (w : World) (settings : Settings) :
    Decidable (invocation.Loads w settings) :=
  inferInstanceAs (Decidable (_ = _))

/-- The text of the log filter of an invocation. -/
def Invocation.directive (invocation : Invocation) (w : World) (settings : Settings) : String :=
  Log.directive (invocation.logLevel?.map (·.name)) settings.log.level?
    (w.environment.lookup Log.environmentName) (invocation.logFile?.or settings.log.file?).isSome

/-- Events are logged where errors are printed, and the filter can be understood. -/
structure Invocation.LogsToTerminal (invocation : Invocation) (w : World) (settings : Settings) :
    Prop where
  file : invocation.logFile?.or settings.log.file? = none
  filter : (Libraries.filter (invocation.directive w settings)).isSome

/-- Whatever is logged can be written. -/
def Invocation.Logged (invocation : Invocation) (w : World) : Prop :=
  ∀ settings allows, invocation.Loads w settings →
    Libraries.filter (invocation.directive w settings) = some allows →
      w.Logs allows (invocation.logFile?.or settings.log.file?)

/-- What the settings are depends on the environment and the files. -/
theorem asks_loadSettings (w : World) (file? : Option String) :
    Asks w (loadSettings file? : Step _) (· = ((loadSettings file? : Step _) w).1) := by
  have hresult : ∃ r, Asks w (loadSettings file? : Step _) (· = r) := by
    refine exists_asks_bind ⟨_, asks_environment w _⟩ fun named? => ?_
    dsimp only
    split
    · exact ⟨_, asks_pure⟩
    · refine exists_asks_bind ⟨_, asks_read w _⟩ fun content => ?_
      split
      · exact ⟨_, asks_pure⟩
      · split
        · exact ⟨_, asks_pure⟩
        · exact ⟨_, asks_pure⟩
  obtain ⟨r, hr⟩ := hresult
  obtain ⟨-, _, -, -, heq⟩ := hr w (.refl w)
  rw [heq]
  exact hr

/-- Without a file, logging is set up if the filter can be understood. -/
theorem asks_start (w : World) (directive : String) :
    Asks w (Logger.start directive none : Step (Except LoggingError (Logger World.Handle)))
      (Exactly fun logger => Libraries.filter directive = some logger.allows ∧
        logger.file? = none) := by
  unfold Logger.start
  cases Libraries.filter directive with
  | none =>
    refine asks_pure.mono ?_
    rintro _ rfl
    exact exactly_error nofun
  | some allows =>
    refine asks_bind asks_pure ?_
    rintro _ rfl
    refine asks_pure.mono ?_
    rintro _ rfl
    refine (exactly_ok _).congr fun logger => ?_
    constructor
    · rintro rfl
      exact ⟨rfl, rfl⟩
    · rintro ⟨hallows, hfile⟩
      obtain ⟨_, _⟩ := logger
      obtain rfl := hfile
      obtain rfl := Option.some.inj hallows
      rfl

/-- A command is carried out once the settings are loaded and logging is set up; if that fails, the
run stops with a message. -/
theorem run_of_command {invocation : Invocation} {command : Command}
    (hversion : invocation.showVersion = false) (hcommand : invocation.command? = some command)
    (hfile : ∀ settings, invocation.Loads w settings →
      invocation.logFile?.or settings.log.file? = none)
    (hlogged : invocation.Logged w) {P : Except String Verdict × World → Prop}
    (hrun : ∀ settings (logger : Logger World.Handle) (v : World), invocation.Loads w settings →
      invocation.LogsToTerminal w settings → logger.ToTerminal w → v.Resembles w →
      v.printed = w.printed → P ((command.run logger settings : Run Step _).run v))
    (hstop : (∀ settings, invocation.Loads w settings → ¬invocation.LogsToTerminal w settings) →
      ∀ e (v : World), v.Resembles w → v.printed = w.printed → P (.error e, v)) :
    P ((invocation.run : Run Step _).run w) := by
  unfold Invocation.run
  rw [if_neg (by simp [hversion]), run_lift_bind]
  refine (asks_loadSettings w _).before (.refl w) fun loaded v hv hprinted hloaded => ?_
  cases loaded with
  | error error => exact hstop (fun settings hloads => nomatch hloaded.trans hloads) _ v hv hprinted
  | ok settings =>
    have hloads : invocation.Loads w settings := hloaded.symm
    have hnone := hfile settings hloads
    dsimp only
    rw [pure_bind, run_lift_bind]
    refine (asks_environment w _).before hv ?_
    rintro _ v' hv' hprinted' rfl
    have hdirective : Log.directive (invocation.logLevel?.map (·.name)) settings.log.level?
        (w.environment.lookup Log.environmentName)
        (invocation.logFile?.or settings.log.file?).isSome = invocation.directive w settings := rfl
    rw [run_lift_bind, hdirective, hnone]
    refine (asks_start w _).before hv' fun started v'' hv'' hprinted'' hstarted => ?_
    cases started with
    | error error =>
      refine hstop (fun other hother hlogs => ?_) _ v'' hv''
        (hprinted''.trans (hprinted'.trans hprinted))
      obtain rfl := Except.ok.inj (hother.symm.trans hloads)
      obtain ⟨allows, hallows⟩ := Option.isSome_iff_exists.mp hlogs.filter
      cases (hstarted ⟨allows, none⟩).mpr ⟨hallows, rfl⟩
    | ok logger =>
      obtain ⟨hallows, hlogger⟩ := (hstarted logger).mp rfl
      have hterminal : logger.ToTerminal w :=
        ⟨hlogger, hnone ▸ hlogged settings logger.allows hloads hallows⟩
      dsimp only
      rw [pure_bind, hcommand, run_bind]
      refine (asks_note hterminal _).before hv'' ?_
      rintro _ v₃ hv₃ hprinted₃ rfl
      exact hrun settings logger v₃ hloads ⟨hnone, Option.isSome_of_eq_some hallows⟩ hterminal hv₃
        (hprinted₃.trans (hprinted''.trans (hprinted'.trans hprinted)))

/-- What a run in a world that checks comes to. -/
structure Invocation.Checks (invocation : Invocation) (w : World) (source : Source)
    (outDir? : Option String) (targets : List Target) (result : Except String Verdict × World) :
    Prop where
  resembles : result.2.Resembles w
  success_iff : result.1 = .ok .success ↔ ∃ settings, invocation.Loads w settings ∧
    invocation.LogsToTerminal w settings ∧ UpToDate w settings source outDir? targets
  printed : result.1 = .ok .success → ∀ settings job, invocation.Loads w settings →
    Job.From w settings source outDir? job →
      result.2.printed = w.printed ++ job.currentReports targets

theorem checks_run {invocation : Invocation} {source : Source} {outDir? : Option String}
    {targets : List Target} (hversion : invocation.showVersion = false)
    (hcommand : invocation.command? = some (.check source outDir? targets))
    (hfile : ∀ settings, invocation.Loads w settings →
      invocation.logFile?.or settings.log.file? = none)
    (hlogged : invocation.Logged w) :
    invocation.Checks w source outDir? targets ((invocation.run : Run Step _).run w) := by
  have unique : ∀ {settings other}, invocation.Loads w settings → invocation.Loads w other →
      other = settings := fun h h' => Except.ok.inj (h'.symm.trans h)
  refine run_of_command hversion hcommand hfile hlogged ?_ ?_
  · intro settings logger v hloads hlogs hlogger hv hprinted
    obtain ⟨hsame, out, hout, hexact, hreports⟩ :=
      looks_runCheck hlogger settings source outDir? targets v hv
    refine ⟨hsame, hexact.trans ⟨fun h => ⟨settings, hloads, hlogs, h⟩, ?_⟩, ?_⟩
    · rintro ⟨other, hother, -, h⟩
      exact unique hloads hother ▸ h
    · intro h other job hother hjob
      obtain rfl := unique hloads hother
      rw [← hreports h job hjob, ← hprinted]
      exact hout
  · intro hstop e v hv hprinted
    refine ⟨hv, ⟨nofun, ?_⟩, nofun⟩
    rintro ⟨settings, hloads, hlogs, -⟩
    exact (hstop settings hloads hlogs).elim

/-- The exit code of a run is zero if all that was asked for came true. -/
theorem execute_eq {arguments : List String} {invocation : Invocation}
    (harguments : Libraries.arguments arguments = .ok invocation)
    {result : Except String Verdict × World}
    (hrun : (invocation.run : Run Step _).run w = result) :
    ∃ code after, (execute arguments : Step Nat) w = (code, after) ∧
      (code = 0 ↔ result.1 = .ok .success) ∧ after.Resembles result.2 ∧
        after.printed = result.2.printed := by
  obtain ⟨r, v⟩ := result
  cases r with
  | ok verdict =>
    have hexecute : (execute arguments : Step Nat) w = (verdict.exitCode, v) := by
      unfold execute
      rw [harguments]
      exact bind_apply hrun
    refine ⟨_, _, hexecute, ?_, .refl v, rfl⟩
    cases verdict <;> simp [Verdict.exitCode]
  | error error =>
    obtain ⟨hsame, _, hprinted, rfl, -⟩ := asks_printError v (error ++ "\n") v (.refl v)
    have hexecute : (execute arguments : Step Nat) w =
        (1, ((Host.printError (error ++ "\n") : Step _) v).2) := by
      unfold execute
      rw [harguments]
      exact bind_apply hrun
    exact ⟨_, _, hexecute, ⟨nofun, nofun⟩, hsame, hprinted.trans String.append_empty⟩

end Run

/-- A world in which nothing was written. -/
def unwritten : World where
  tree := .empty ["work"]

/-! ### A script that stands -/

/-- A world with a script that was made with a template of its own. -/
def written : World where
  tree := ⟨[(["work"], .directory), (["work", "output"], .directory),
    (["work", "causal-compiler.toml"], .file 0), (["work", "template"], .file 1),
    (["work", "output", "imitation.py"], .file 2)],
    ["[templates]\nimitation = \"template\"\n".toUTF8, "# INSERT METHODS HERE".toUTF8,
      ("def m(state):\n    __ret_val = [('f',)]\n    return __ret_val\n" ++
        "pyhop.declare_methods('m',m)\n").toUTF8], ["work"]⟩

/-- Arguments that check that script. -/
def checkingArguments : List String :=
  ["check", "--text", "RULES \x7b m() := f() \x7d", "--target", "imitation"]

/-- What those arguments ask for. -/
def checkingInvocation : Invocation :=
  ⟨false, none, none, none, some (.check (.text "RULES \x7b m() := f() \x7d") none [.imitation])⟩

/-- What that script is made from. -/
def writtenJob : Job where
  settings := { templates := ⟨none, some "template"⟩ }
  source := ⟨message "input.text_label" [], "RULES \x7b m() := f() \x7d"⟩
  program := ⟨[⟨none, ⟨"m", [], 8⟩, [⟨"f", [], 15⟩], 8⟩]⟩
  templates := { Templates.builtin with imitation := "# INSERT METHODS HERE" }
  outDir := "output"

/-- The script stands and could be made again, as long as files can be read. -/
structure Stands (w : World) : Prop where
  loads : checkingInvocation.Loads w writtenJob.settings
  made : Job.From w writtenJob.settings (.text "RULES \x7b m() := f() \x7d") none writtenJob
  current : writtenJob.Current w .imitation

theorem read_checked : Program.read Limits.caps "RULES \x7b m() := f() \x7d" =
    .ok ⟨[⟨none, ⟨"m", [], 8⟩, [⟨"f", [], 15⟩], 8⟩]⟩ := by
  decide +kernel

theorem stands_of_reads {w : World} (htree : w.tree = written.tree)
    (hloads : checkingInvocation.Loads w writtenJob.settings)
    (hreads : ∀ path, w.Grants w.tree (.size path) ∧ w.Grants w.tree (.read path)) : Stands w where
  loads := hloads
  made := {
    inForce := rfl
    given := ⟨rfl, by decide⟩
    read := read_checked
    loaded := ⟨none, some "# INSERT METHODS HERE", .none,
      .some ⟨⟨(hreads _).1, (hreads _).2, htree ▸ rfl⟩, by decide⟩, rfl⟩
    placed := rfl }
  current := ⟨"def m(state):\n    __ret_val = [('f',)]\n    return __ret_val\n" ++
    "pyhop.declare_methods('m',m)\n", by decide +kernel,
    ⟨(hreads _).1, (hreads _).2, htree ▸ by decide +kernel⟩, by decide +kernel⟩

/-- A filter that cannot be understood, in the environment. -/
def garbled : World :=
  { written with environment := [(Log.environmentName, "causal_lang=loud")] }

/-- Results cannot be printed for want of space. -/
def muted : World :=
  { written with refuses := fun _ operation => match operation with
      | .print _ => some ⟨.other "No space left on device (os error 28)", 0⟩
      | _ => none }

end CommandLine

end CausalRules
