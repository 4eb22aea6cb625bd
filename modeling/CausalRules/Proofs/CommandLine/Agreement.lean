import CausalRules.Proofs.CommandLine.Compiling
import CausalRules.Proofs.FileTree.Replacing
import CausalRules.Proofs.Imitation.Growth
import CausalRules.Proofs.Path
import CausalRules.Proofs.Text.Replace

/-!
# Checking accepts what compiling wrote

A run that checks reads again what a run that compiled has read, and finds the scripts that it would
make from it. That is so unless a script is too large to be read back, or writing the scripts has
changed something that is read.

- `Rereads`: what is read is read in another tree too; `from_of_rereads`, `loads_of_read_eq` say what
  this means for scripts and settings.
- `writesAll_spec`: scripts that were all written are there.
- `Task`: what a run is asked for that makes scripts; `Task.Undisturbed`: writing them changes nothing
  that is read.
- `Task.check_after_compile`: the two runs. `Task.Rejected` is where the second one fails.
-/

namespace CausalRules

/-- The paths of the template files. -/
def TemplateSettings.paths (settings : TemplateSettings) : List String :=
  settings.facility?.toList ++ settings.imitation?.toList

namespace CommandLine

open World (Step)
open FileTree (Keeps Ready)

/-! ## What is read again -/

/-- The paths of the files that a source is. -/
def Source.paths : Source → List String
  | .text _ => []
  | .file path => [path]

/-- What is read at one of the paths is read in the other world too. -/
def Rereads (paths : List String) (w w' : World) : Prop :=
  ∀ path ∈ paths, ∀ content, w.Reads path content → w'.Reads path content

section Rereading

variable {w w' : World}

theorem holdsText_of_rereads {paths : List String} {limit : Nat} {path text : String}
    (h : Rereads paths w w') (hpath : path ∈ paths) (hholds : w.HoldsText limit path text) :
    w'.HoldsText limit path text :=
  ⟨h path hpath _ hholds.reads, hholds.size⟩

theorem gives_of_rereads {source : Source} {limits : Limits} {found : SourceText}
    (h : Rereads source.paths w w') (hgives : source.Gives w limits found) :
    source.Gives w' limits found := by
  cases source with
  | text => exact hgives
  | file path => exact ⟨hgives.1, holdsText_of_rereads h (List.mem_singleton_self path) hgives.2⟩

theorem templatesGive_of_rereads {settings : TemplateSettings} {templates : Templates}
    (h : Rereads settings.paths w w') (hgive : TemplatesGive w settings templates) :
    TemplatesGive w' settings templates := by
  have hrel : ∀ {path? text?}, (∀ path ∈ path?, path ∈ settings.paths) →
      Option.Rel (w.HoldsText Template.maxBytes) path? text? →
      Option.Rel (w'.HoldsText Template.maxBytes) path? text? := by
    intro path? text? hpaths hholds
    cases hholds with
    | none => exact .none
    | some hholds => exact .some (holdsText_of_rereads h (hpaths _ rfl) hholds)
  obtain ⟨facility?, imitation?, hfacility, himitation, hgiven⟩ := hgive
  refine ⟨facility?, imitation?, hrel (fun path hpath => ?_) hfacility,
    hrel (fun path hpath => ?_) himitation, hgiven⟩
  · exact List.mem_append_left _ (Option.mem_toList.mpr hpath)
  · exact List.mem_append_right _ (Option.mem_toList.mpr hpath)

theorem from_of_rereads {settings : Settings} {source : Source} {outDir? : Option String} {job : Job}
    (h : Rereads (source.paths ++ settings.templates.paths) w w')
    (hfrom : Job.From w settings source outDir? job) : Job.From w' settings source outDir? job where
  inForce := hfrom.inForce
  given := gives_of_rereads (fun path hpath => h path (List.mem_append_left _ hpath)) hfrom.given
  read := hfrom.read
  loaded := templatesGive_of_rereads (fun path hpath => h path (List.mem_append_right _ hpath))
    hfrom.loaded
  placed := hfrom.placed

end Rereading

/-! ### Settings -/

/-- The path of the settings file. -/
def Invocation.settingsPath (invocation : Invocation) (w : World) : String :=
  (invocation.settingsFile?.or (w.environment.lookup Settings.fileEnvironmentName)).getD
    Settings.defaultFileName

section Loading

variable [Libraries] {w w' : World} {invocation : Invocation} {settings : Settings}

theorem loadSettings_eq (w : World) (file? : Option String) :
    ((loadSettings file? : Step _) w).1 =
      let named? := file?.or (w.environment.lookup Settings.fileEnvironmentName)
      let path := named?.getD Settings.defaultFileName
      match settingsPathFault? path, w.reading path with
      | some fault, _ => .error (.invalid fault)
      | none, .ok content => settingsOfContent content
      | none, .error failure =>
        if failure = .notFound ∧ named?.isNone then .ok {}
        else .error (.unreadable failure.message) := by
  unfold loadSettings
  rw [bind_apply (rfl : (Host.environment Settings.fileEnvironmentName : Step _) w =
    (w.environment.lookup Settings.fileEnvironmentName, w))]
  dsimp only
  generalize file?.or (w.environment.lookup Settings.fileEnvironmentName) = named?
  cases settingsPathFault? (named?.getD Settings.defaultFileName) with
  | some fault => rfl
  | none =>
    dsimp only
    have hread : (Host.read (named?.getD Settings.defaultFileName) : Step _) w =
        (w.reading (named?.getD Settings.defaultFileName), w) := by
      refine (unlessRefused_apply _ _ w).trans ?_
      rw [World.reading, World.answer]
      cases w.refuses w.tree (.read (named?.getD Settings.defaultFileName)) with
      | some | none => rfl
    rw [bind_apply hread]
    cases w.reading (named?.getD Settings.defaultFileName) with
    | ok content => rfl
    | error failure =>
      dsimp only
      split
      · rfl
      · rfl

/-- The settings depend on what is read in their file. -/
theorem loads_of_read_eq (henvironment : w'.environment = w.environment)
    (hread : w'.reading (invocation.settingsPath w) = w.reading (invocation.settingsPath w))
    (h : invocation.Loads w settings) : invocation.Loads w' settings := by
  unfold Invocation.settingsPath at hread
  rw [Invocation.Loads, loadSettings_eq] at h ⊢
  rw [henvironment]
  dsimp only at h ⊢
  rw [hread]
  exact h

/-- Settings are read from their file, or it is not there and need not be. -/
theorem loads_cases (h : invocation.Loads w settings) :
    (∃ content, w.reading (invocation.settingsPath w) = .ok content ∧
      settingsOfContent content = .ok settings) ∨
      invocation.settingsPath w = Settings.defaultFileName ∧
        w.reading (invocation.settingsPath w) = .error .notFound ∧ settings = {} := by
  rw [Invocation.Loads, loadSettings_eq] at h
  unfold Invocation.settingsPath
  generalize invocation.settingsFile?.or
    (w.environment.lookup Settings.fileEnvironmentName) = named? at h
  dsimp only at h
  cases hfault : settingsPathFault? (named?.getD Settings.defaultFileName) with
  | some fault =>
    rw [hfault] at h
    cases h
  | none =>
    cases hread : w.reading (named?.getD Settings.defaultFileName) with
    | ok content =>
      rw [hfault, hread] at h
      exact .inl ⟨content, rfl, h⟩
    | error failure =>
      rw [hfault, hread] at h
      dsimp only at h
      split at h
      · rename_i hmissing
        obtain ⟨rfl, hnone⟩ := hmissing
        obtain rfl := Option.isNone_iff_eq_none.mp hnone
        exact .inr ⟨rfl, rfl, (Except.ok.inj h).symm⟩
      · cases h

theorem named_of_loads (h : invocation.Loads w settings) : settings.output.Named := by
  rcases loads_cases h with ⟨content, -, hsettings⟩ | ⟨-, -, rfl⟩
  · unfold settingsOfContent at hsettings
    split at hsettings
    · cases hsettings
    · split at hsettings
      · cases hsettings
      · exact Settings.named_of_ofText hsettings
  · exact Settings.named_default

end Loading

/-! ## What is written -/

section Writing

theorem foldl_child_filter (names : List String) (l : Location) :
    (names.filter (· ≠ ".")).foldl FileTree.child l = names.foldl FileTree.child l := by
  induction names generalizing l with
  | nil => rfl
  | cons name rest ih =>
    by_cases hdot : name = "."
    · rw [List.filter_cons_of_neg (by simpa using hdot), ih, List.foldl_cons, FileTree.child,
        if_pos hdot]
    · rw [List.filter_cons_of_pos (by simpa using hdot), List.foldl_cons, List.foldl_cons, ih]

/-- The parts in front of a name lead where the names of its directory lead. -/
theorem exists_parts_join (directory : String) {name : String} (hname : Path.IsFileName name) :
    ∃ above, Path.parts (Path.join directory name) = above ++ [name] ∧
      ∀ l, above.foldl FileTree.child l = (Path.names directory).foldl FileTree.child l := by
  unfold Path.parts
  rw [Path.names_join hname]
  cases Path.names directory with
  | nil =>
    refine ⟨[], ?_, fun _ => rfl⟩
    dsimp only [List.nil_append]
    rw [if_neg fun h => hname.ne_dot h.1, List.filter_nil]
  | cons first rest =>
    have hfilter : (rest ++ [name]).filter (· ≠ ".") = rest.filter (· ≠ ".") ++ [name] := by
      rw [List.filter_append, List.filter_cons_of_pos (by simpa using hname.ne_dot), List.filter_nil]
    dsimp only [List.cons_append]
    rw [hfilter]
    split
    · rename_i hdot
      refine ⟨rest.filter (· ≠ "."), rfl, fun l => ?_⟩
      rw [foldl_child_filter, List.foldl_cons, FileTree.child, if_pos hdot.1]
    · refine ⟨first :: rest.filter (· ≠ "."), rfl, fun l => ?_⟩
      rw [List.foldl_cons, foldl_child_filter, List.foldl_cons]

/-- Files with different names in a directory are different files. Their temporary files are in the same
directory. -/
theorem spot_join (tree : FileTree) (directory : String) : ∃ inside : Location, ∀ name,
    Path.IsFileName name → tree.spot (Path.join directory name) = inside ++ [name] ∧
      ∀ number, tree.spot (temporaryPath (Path.join directory name) number) =
        inside ++ [s!".{name}.{number}.tmp"] := by
  refine ⟨(Path.names directory).foldl FileTree.child (tree.start (Path.join directory "")),
    fun name hname => ?_⟩
  have hstart : tree.start (Path.join directory name) = tree.start (Path.join directory "") := by
    rw [FileTree.start, FileTree.start, Path.isAbsolute_join directory name ""]
  refine ⟨?_, fun number => ?_⟩
  · rw [FileTree.spot, Path.names_join hname, List.foldl_append, hstart, List.foldl_cons,
      List.foldl_nil, FileTree.child, if_neg hname.ne_dot, if_neg hname.ne_dots]
  · obtain ⟨above, hparts, habove⟩ := exists_parts_join directory hname
    have hpart : ∀ part ∈ above ++ [s!".{name}.{number}.tmp"], Path.IsPart part := by
      intro part hmem
      rcases List.mem_append.mp hmem with hmem | hmem
      · have hmem' : part ∈ Path.parts (Path.join directory name) :=
          hparts ▸ List.mem_append_left _ hmem
        exact Path.isPart_of_mem_names ((Path.parts_sublist _).subset hmem')
      · rw [List.mem_singleton.mp hmem]
        exact isPart_temporaryName hname.no_slash number
    have hpath : temporaryPath (Path.join directory name) number =
        Path.ofParts (Path.isAbsolute (Path.join directory name))
          (above ++ [s!".{name}.{number}.tmp"]) := by
      rw [temporaryPath, Path.sibling, hparts, List.dropLast_concat, List.getLastD_concat]
    have hlong : ∀ short : String, short.length ≤ 2 → s!".{name}.{number}.tmp" ≠ short := by
      rintro _ hshort rfl
      have := length_temporaryName name number
      omega
    have hstart' : tree.start (temporaryPath (Path.join directory name) number) =
        tree.start (Path.join directory name) := by
      rw [hpath, FileTree.start, FileTree.start, Path.isAbsolute_ofParts hpart]
    rw [FileTree.spot, hstart', hstart, hpath, Path.names_ofParts hpart (by simp), List.foldl_append,
      habove, List.foldl_cons, List.foldl_nil, FileTree.child, if_neg (hlong _ (by decide)),
      if_neg (hlong _ (by decide))]

variable {job : Job} {w : World} {tree tree' : FileTree}

theorem spot_path_ne (hnamed : job.settings.output.Named) {target other : Target}
    (hne : target ≠ other) : tree.spot (job.path target) ≠ tree.spot (job.path other) := by
  obtain ⟨inside, hinside⟩ := spot_join tree job.outDir
  intro heq
  rw [Job.path, Job.path, (hinside _ (hnamed.name target)).1, (hinside _ (hnamed.name other)).1] at heq
  exact hnamed.differ target other hne (List.cons.inj (List.append_cancel_left heq)).1

/-- The temporary file of a target is none of another one, nor is it the file of the target. -/
theorem spot_temporary_ne (hnamed : job.settings.output.Named) {target other : Target} (number : Nat) :
    (target ≠ other →
      tree.spot (job.temporary number target) ≠ tree.spot (job.temporary number other)) ∧
      tree.spot (job.path target) ≠ tree.spot (job.temporary number target) := by
  obtain ⟨inside, hinside⟩ := spot_join tree job.outDir
  refine ⟨fun hne heq => ?_, fun heq => ?_⟩
  · rw [Job.temporary, Job.temporary, Job.path, Job.path, (hinside _ (hnamed.name target)).2,
      (hinside _ (hnamed.name other)).2] at heq
    exact hnamed.differ target other hne
      (temporaryName_inj (List.cons.inj (List.append_cancel_left heq)).1)
  · rw [Job.temporary, Job.path, (hinside _ (hnamed.name target)).1,
      (hinside _ (hnamed.name target)).2] at heq
    have hlength := length_temporaryName (job.settings.output.fileOf target) number
    rw [← (List.cons.inj (List.append_cancel_left heq)).1] at hlength
    omega

/-- **Written scripts are there** when all are written, as long as no temporary file is an earlier
script. Nothing else was changed but the temporary files. -/
theorem writesAll_spec (hnamed : job.settings.output.Named) {targets : List Target}
    (hready : Ready
      (fun l => ∃ target ∈ targets, l = tree.spot (job.temporary w.runNumber target)) tree)
    (hlater : targets.Pairwise fun target later =>
      tree.spot (job.path target) ≠ tree.spot (job.temporary w.runNumber later))
    (h : job.WritesAll w targets tree tree') :
    Keeps (fun l => ∃ target ∈ targets, l = tree.spot (job.temporary w.runNumber target) ∨
        l = tree.spot (job.path target)) (fun _ => False) tree tree' ∧
      ∀ target ∈ targets, ∃ script, job.program.script job.templates target = .ok script ∧
        tree'.read (job.path target) = .ok script.toUTF8 := by
  induction targets generalizing tree with
  | nil =>
    obtain rfl : tree = tree' := h
    exact ⟨.refl tree, nofun⟩
  | cons target targets ih =>
    obtain ⟨between, ⟨script, hscript, hreplacing, -⟩, hrest⟩ := h
    have hreplaces := World.replaces_of_replacing hreplacing
    obtain ⟨hfirst, hlater⟩ := List.pairwise_cons.mp hlater
    have hmem : target ∈ target :: targets := List.mem_cons_self ..
    -- of the temporary files only its own can be the script that is written
    have hnew : (∃ other ∈ target :: targets,
        tree.spot (job.path target) = tree.spot (job.temporary w.runNumber other)) →
          tree.spot (job.path target) = tree.spot (job.temporary w.runNumber target) := by
      rintro ⟨other, hother, hl⟩
      rcases List.mem_cons.mp hother with rfl | hother
      · exact hl
      · exact absurd hl (hfirst other hother)
    obtain ⟨hread, hkeeps, hready⟩ := FileTree.replace_spec hready ⟨target, hmem, rfl⟩ hnew
      (Path.endsWithSlash_join (hnamed.name target)) hreplaces
    simp only [← hkeeps.spot_eq] at hready hlater hfirst
    obtain ⟨hkeeps', hscripts⟩ := ih
      (hready.mono fun l ⟨other, hother, hl⟩ => ⟨other, List.mem_cons_of_mem _ hother, hl⟩)
      hlater hrest
    refine ⟨(hkeeps.mono ?_ fun _ => id).trans (hkeeps'.mono ?_ fun _ => id),
      List.forall_mem_cons.mpr ⟨?_, hscripts⟩⟩
    · exact fun l hl => ⟨target, hmem, hl⟩
    · rintro l ⟨other, hother, hl⟩
      rw [hkeeps.spot_eq, hkeeps.spot_eq] at hl
      exact ⟨other, List.mem_cons_of_mem _ hother, hl⟩
    · by_cases hagain : target ∈ targets
      · exact hscripts target hagain
      · refine ⟨script, hscript, FileTree.read_of_keeps hkeeps' hread ?_⟩
        rintro ⟨other, hother, hl | hl⟩
        · exact hfirst other hother hl
        · have hne : target ≠ other := fun heq => hagain (heq ▸ hother)
          exact spot_path_ne hnamed hne hl

end Writing

/-! ### Without settings -/

theorem settingsPathFault_default : settingsPathFault? Settings.defaultFileName = none := by
  decide +kernel

theorem ancestors_output : Path.ancestors "output" = ["output"] := by
  decide +kernel

theorem isSome_filter_default :
    (Libraries.filter (Log.directive none none none false)).isSome = true := by
  decide +kernel

/-! ## Compiling and then checking -/

/-- What a run is asked for that makes scripts, be it to write them or to compare them. -/
structure Task where
  invocation : Invocation
  settings : Settings
  source : Source
  outDir? : Option String
  targets : List Target

namespace Task

/-- What is asked for when the scripts are to be written. -/
def compiling (task : Task) : Invocation :=
  { task.invocation with command? := some (.compile task.source task.outDir? task.targets) }

/-- What is asked for when the scripts are to be compared. -/
def checking (task : Task) : Invocation :=
  { task.invocation with command? := some (.check task.source task.outDir? task.targets) }

/-- The directory that the scripts belong into. -/
def outDir (task : Task) : String :=
  task.outDir?.getD task.settings.output.dir

/-- The file of a target's script. -/
def output (task : Task) (target : Target) : String :=
  Path.join task.outDir (task.settings.output.fileOf target)

/-- The temporary file that is written before that of a target. -/
def temporary (task : Task) (w : World) (target : Target) : String :=
  temporaryPath (task.output target) w.runNumber

/-- The files that are read: that of the settings, that of the program, and those of templates. -/
def inputs (task : Task) (w : World) : List String :=
  task.invocation.settingsPath w :: (task.source.paths ++ task.settings.templates.paths)

/-- The same task is set with arguments that compile and with arguments that check. No script is
written over a file that is read, and events are logged to the terminal. -/
structure Posed [Libraries] (task : Task) (w : World) (compileArguments checkArguments : List String) :
    Prop where
  compile : Libraries.arguments compileArguments = .ok task.compiling
  check : Libraries.arguments checkArguments = .ok task.checking
  loads : task.invocation.Loads w task.settings
  terminal : task.invocation.logFile?.or task.settings.log.file? = none
  unread : ∀ path ∈ task.inputs w, ∀ target ∈ task.targets,
    w.tree.spot path ≠ w.tree.spot (task.output target)

/-- What is written on the way to the scripts is nothing else that matters. Temporary files are not
read, are no earlier scripts, and have no other names; and no directory comes to be where a missing
settings file was looked for. -/
structure Undisturbed (task : Task) (w : World) : Prop where
  unread : ∀ path ∈ task.inputs w, ∀ target ∈ task.targets,
    w.tree.spot path ≠ w.tree.spot (task.temporary w target)
  later : task.targets.Pairwise fun target later =>
    w.tree.spot (task.output target) ≠ w.tree.spot (task.temporary w later)
  files : Ready (fun l => ∃ target ∈ task.targets, l = w.tree.spot (task.temporary w target)) w.tree
  directories : ∀ directory ∈ Path.ancestors task.outDir,
    w.tree.spot (task.invocation.settingsPath w) ≠ w.tree.spot directory

/-- The files that a later run reads are not kept from being read, nor is the settings file before; what
that run prints can be printed, and the lines of both logs can be written. -/
structure Unhindered [Libraries] (task : Task) (w later : World) : Prop where
  settings : w.Grants w.tree (.read (task.invocation.settingsPath w))
  inputs : ∀ path ∈ task.inputs w,
    later.Grants later.tree (.size path) ∧ later.Grants later.tree (.read path)
  outputs : ∀ target ∈ task.targets, later.Grants later.tree (.size (task.output target)) ∧
    later.Grants later.tree (.read (task.output target))
  prints : ∀ text, later.Grants later.tree (.print text)
  logged : task.invocation.Logged w
  loggedLater : task.invocation.Logged later

/-- The scripts of a task have the files that are named for it. -/
theorem path_eq {task : Task} {w : World} {job : Job}
    (hfrom : Job.From w task.settings task.source task.outDir? job) (target : Target) :
    job.path target = task.output target := by
  rw [Job.path, hfrom.inForce, hfrom.placed, output, outDir]

/-- Where files are written. -/
def Written (task : Task) (w : World) (l : Location) : Prop :=
  ∃ target ∈ task.targets, l = w.tree.spot (task.temporary w target) ∨
    l = w.tree.spot (task.output target)

section Rounds

variable {task : Task} {w later : World} {tree : FileTree}

/-- A success changes nothing but the files that are written, and the scripts are there. -/
theorem compiles_spec (hnamed : task.settings.output.Named) (hundisturbed : task.Undisturbed w)
    (h : Compiles w task.settings task.source task.outDir? task.targets tree) :
    Keeps (task.Written w) (fun l => ∃ path ∈ Path.ancestors task.outDir, l = w.tree.spot path)
        w.tree tree ∧
      ∃ job, Job.From w task.settings task.source task.outDir? job ∧
        ∀ target ∈ task.targets, ∃ script, job.program.script job.templates target = .ok script ∧
          tree.read (job.path target) = .ok script.toUTF8 := by
  obtain ⟨job, made, hfrom, hmade, hall⟩ := h
  have houtDir : job.outDir = task.outDir := hfrom.placed
  have htemporary : ∀ target, job.temporary w.runNumber target = task.temporary w target := by
    intro target
    rw [Job.temporary, path_eq hfrom, temporary]
  obtain ⟨hmakes, -, hready⟩ := makesAmong_of_makingFirst hmade
  rw [houtDir] at hmakes
  obtain ⟨hkeeps, hscripts⟩ := writesAll_spec (hfrom.inForce ▸ hnamed)
    (by simpa only [htemporary, hmakes.spot_eq] using hready _ hundisturbed.files)
    (by simpa only [path_eq hfrom, htemporary, hmakes.spot_eq] using hundisturbed.later) hall
  simp only [path_eq hfrom, htemporary, hmakes.spot_eq] at hkeeps
  refine ⟨(hmakes.mono (fun _ => False.elim) fun _ => id).trans
    (hkeeps.mono (fun _ => id) fun _ => False.elim), job, hfrom, hscripts⟩

/-- A target is up to date after a success if its script is not too large. -/
theorem current_iff {job : Job} {target : Target} {script : String}
    (hscript : job.program.script job.templates target = .ok script)
    (hreads : w.Reads (job.path target) script.toUTF8) :
    job.Current w target ↔ script.utf8ByteSize ≤ Job.maxScriptBytes := by
  constructor
  · rintro ⟨other, hother, hholds⟩
    obtain rfl := Except.ok.inj (hscript.symm.trans hother)
    exact hholds.size
  · exact fun hsize => ⟨script, hscript, hreads, hsize⟩

variable [Libraries] {compileArguments checkArguments : List String}

/-- What is read, and the settings file if there is none, are as before. -/
theorem read_eq_of_compiles (hposed : task.Posed w compileArguments checkArguments)
    (hundisturbed : task.Undisturbed w) (hunhindered : task.Unhindered w later)
    (h : Compiles w task.settings task.source task.outDir? task.targets later.tree) :
    Rereads (task.inputs w) w later ∧
      later.reading (task.invocation.settingsPath w) =
        w.reading (task.invocation.settingsPath w) := by
  obtain ⟨hkeeps, -⟩ := compiles_spec (named_of_loads hposed.loads) hundisturbed h
  have hunwritten : ∀ path ∈ task.inputs w, ¬task.Written w (w.tree.spot path) := by
    rintro path hpath ⟨target, htarget, heq | heq⟩
    · exact hundisturbed.unread path hpath target htarget heq
    · exact hposed.unread path hpath target htarget heq
  have hsettings : task.invocation.settingsPath w ∈ task.inputs w := List.mem_cons_self ..
  have hreading : w.reading (task.invocation.settingsPath w) =
      w.tree.read (task.invocation.settingsPath w) :=
    World.answer_of_grants hunhindered.settings
  have hreading' : later.reading (task.invocation.settingsPath w) =
      later.tree.read (task.invocation.settingsPath w) :=
    World.answer_of_grants (hunhindered.inputs _ hsettings).2
  refine ⟨fun path hpath content hreads => ?_, ?_⟩
  · obtain ⟨hsize, hread⟩ := hunhindered.inputs path hpath
    exact ⟨hsize, hread, FileTree.read_of_keeps hkeeps hreads.content (hunwritten path hpath)⟩
  · rw [hreading']
    rcases loads_cases hposed.loads with ⟨content, hread, -⟩ | ⟨hdefault, hread, -⟩
    · rw [hread]
      exact FileTree.read_of_keeps hkeeps (hreading.symm.trans hread) (hunwritten _ hsettings)
    · rw [hread]
      refine FileTree.missing_of_keeps hkeeps (hdefault ▸ by decide +kernel)
        (hdefault ▸
          (by decide +kernel : Path.names Settings.defaultFileName = ["causal-compiler.toml"]))
        (hreading.symm.trans hread) (hunwritten _ hsettings) ?_
      rintro ⟨directory, hdirectory, heq⟩
      exact hundisturbed.directories directory hdirectory heq

/-- The settings of a task are the only ones that are loaded where they are loaded. -/
theorem terminal_of_loads {v : World} {settings : Settings}
    (hterminal : task.invocation.logFile?.or task.settings.log.file? = none)
    (hloads : task.invocation.Loads v task.settings) (h : task.invocation.Loads v settings) :
    task.invocation.logFile?.or settings.log.file? = none :=
  Except.ok.inj (hloads.symm.trans h) ▸ hterminal

/-- Which command is given makes no difference to logging. -/
theorem logsToTerminal_compiling {v : World} {settings : Settings} :
    task.compiling.LogsToTerminal v settings ↔ task.invocation.LogsToTerminal v settings :=
  ⟨fun h => ⟨h.file, h.filter⟩, fun h => ⟨h.file, h.filter⟩⟩

theorem logsToTerminal_checking {v : World} {settings : Settings} :
    task.checking.LogsToTerminal v settings ↔ task.invocation.LogsToTerminal v settings :=
  ⟨fun h => ⟨h.file, h.filter⟩, fun h => ⟨h.file, h.filter⟩⟩

/-- A run that compiles exits with zero exactly if logging is set up, and everything is read, made,
written and reported. -/
theorem compile_exact (harguments : Libraries.arguments compileArguments = .ok task.compiling)
    (hversion : task.invocation.showVersion = false) (hloads : task.invocation.Loads w task.settings)
    (hterminal : task.invocation.logFile?.or task.settings.log.file? = none)
    (hlogged : task.invocation.Logged w) :
    ∃ code after, (execute compileArguments : Step Nat) w = (code, after) ∧
      after.Resembles (w.withTree after.tree) ∧
      ∀ tree, (task.invocation.LogsToTerminal w task.settings ∧
        Compiles w task.settings task.source task.outDir? task.targets tree) ↔
          code = 0 ∧ after.tree = tree := by
  have hends : task.compiling.EndsIn w task.settings task.source task.outDir? task.targets
      ((task.compiling.run : Run Step _).run w) :=
    endsIn_run hversion rfl hloads hterminal hlogged
  obtain ⟨code, after, hexecute, hcode, hafter, -⟩ := execute_eq harguments rfl
  refine ⟨code, after, hexecute, ?_, fun tree => ?_⟩
  · rw [hafter.tree]
    exact hafter.trans hends.resembles
  rw [hcode, hafter.tree]
  by_cases hlogs : task.invocation.LogsToTerminal w task.settings
  · rw [and_iff_right hlogs]
    exact (hends.ends (logsToTerminal_compiling.mpr hlogs)).compiles_iff tree
  · have hfails := (hends.stops (mt logsToTerminal_compiling.mp hlogs)).1
    exact ⟨fun h => (hlogs h.1).elim, fun h => (hfails h.1).elim⟩

/-- A run that checks exits with zero exactly if logging is set up and the scripts are up to date,
which it says then. It changes no file. -/
theorem check_again (harguments : Libraries.arguments checkArguments = .ok task.checking)
    (hversion : task.invocation.showVersion = false)
    (hterminal : task.invocation.logFile?.or task.settings.log.file? = none)
    (hloads : task.invocation.Loads later task.settings) (hlogged : task.invocation.Logged later) :
    ∃ code final, (execute checkArguments : Step Nat) later = (code, final) ∧
      final.tree = later.tree ∧
      (code = 0 ↔ task.invocation.LogsToTerminal later task.settings ∧
        UpToDate later task.settings task.source task.outDir? task.targets) ∧
      (code = 0 → ∀ job, Job.From later task.settings task.source task.outDir? job →
        final.printed = later.printed ++ job.currentReports task.targets) := by
  have hchecks : task.checking.Checks later task.source task.outDir? task.targets
      ((task.checking.run : Run Step _).run later) :=
    checks_run hversion rfl (fun _ => terminal_of_loads hterminal hloads) hlogged
  obtain ⟨code, final, hexecute, hcode, hfinal, hprinted⟩ := execute_eq harguments rfl
  refine ⟨code, final, hexecute, hfinal.tree.trans hchecks.resembles.tree, ?_, fun hzero job hjob => ?_⟩
  · rw [hcode, hchecks.success_iff]
    simp only [logsToTerminal_checking]
    constructor
    · rintro ⟨settings, hother, h⟩
      exact Except.ok.inj (hother.symm.trans hloads) ▸ h
    · exact fun h => ⟨task.settings, hloads, h⟩
  · rw [hprinted]
    exact hchecks.printed (hcode.mp hzero) task.settings job hloads hjob

theorem Unhindered.of_obliging (h : w.Obliging) (hlater : later.Obliging) :
    task.Unhindered w later where
  settings := h _ _
  inputs := fun _ _ => ⟨hlater _ _, hlater _ _⟩
  outputs := fun _ _ => ⟨hlater _ _, hlater _ _⟩
  prints := fun _ => hlater _ _
  logged := fun _ _ _ _ => h.logs _ _
  loggedLater := fun _ _ _ _ => hlater.logs _ _

/-- Nothing is refused after a run where nothing was refused before. -/
theorem obliging_after_compile (hposed : task.Posed w compileArguments checkArguments)
    (hversion : task.invocation.showVersion = false) (h : w.Obliging) :
    ((execute compileArguments : Step Nat) w).2.Obliging := by
  obtain ⟨_, after, hexecute, hsame, -⟩ := compile_exact hposed.compile hversion hposed.loads
    hposed.terminal fun _ _ _ _ => h.logs _ _
  rw [hexecute]
  exact hsame.obliging h

end Rounds

/-- The task without settings and with no options but for the source and the directory. -/
def plain (source : Source) (outDir? : Option String) (targets : List Target) : Task :=
  ⟨⟨false, none, none, none, none⟩, {}, source, outDir?, targets⟩

theorem noFile_unwritten (l : Location) : unwritten.tree.NoFile l := by
  intro number hl
  have hentries : unwritten.tree.entries = [(["work"], .directory)] := rfl
  unfold FileTree.entry? at hl
  split at hl
  · cases hl
  · rw [hentries, List.lookup_cons] at hl
    split at hl
    · cases hl
    · cases hl

instance (task : Task) (w : World) (compileArguments checkArguments : List String) :
    Decidable (task.Posed w compileArguments checkArguments) :=
  decidable_of_iff (Libraries.arguments compileArguments = .ok task.compiling ∧
    Libraries.arguments checkArguments = .ok task.checking ∧
    ((loadSettings task.invocation.settingsFile? : Step _) w).1 = .ok task.settings ∧
    task.invocation.logFile?.or task.settings.log.file? = none ∧
    ∀ path ∈ task.inputs w, ∀ target ∈ task.targets,
      w.tree.spot path ≠ w.tree.spot (task.output target))
    ⟨fun ⟨h₁, h₂, h₃, h₄, h₅⟩ => ⟨h₁, h₂, h₃, h₄, h₅⟩, fun h => ⟨h.1, h.2, h.3, h.4, h.5⟩⟩

/-- A run that compiles succeeds, and the run that checks the same right afterwards fails. -/
structure Rejected (task : Task) (w : World) (compileArguments checkArguments : List String) :
    Prop where
  posed : task.Posed w compileArguments checkArguments
  compiles : ((execute compileArguments : Step Nat) w).1 = 0
  checks : ((execute checkArguments : Step Nat)
    ((execute compileArguments : Step Nat) w).2).1 ≠ 0

instance (task : Task) (w : World) (compileArguments checkArguments : List String) :
    Decidable (task.Rejected w compileArguments checkArguments) :=
  decidable_of_iff (task.Posed w compileArguments checkArguments ∧
    ((execute compileArguments : Step Nat) w).1 = 0 ∧
    ((execute checkArguments : Step Nat) ((execute compileArguments : Step Nat) w).2).1 ≠ 0)
    ⟨fun ⟨h₁, h₂, h₃⟩ => ⟨h₁, h₂, h₃⟩, fun h => ⟨h.1, h.2, h.3⟩⟩

/-- The directory `work` with a directory `output` and a program in it. -/
def programWorld (text : String) : World where
  tree := ⟨[(["work"], .directory), (["work", "output"], .directory),
    (["work", "program.txt"], .file 0)], [text.toUTF8], ["work"]⟩

/-! ### A script is too large -/

section Large

variable {text : String}

theorem obliging_programWorld (text : String) : (programWorld text).Obliging := fun _ _ => rfl

theorem exists_replaces_programWorld (text : String) (content : ByteArray) : ∃ tree,
    (programWorld text).tree.Replaces "output/.imitation.py.0.tmp" "output/imitation.py" content
      tree ∧ tree.read "program.txt" = .ok text.toUTF8 ∧
      tree.read "causal-compiler.toml" = .error .notFound :=
  ⟨_, ⟨_, rfl, rfl⟩, rfl, rfl⟩

/-- The task of writing the imitation script of that program. -/
def imitating : Task :=
  plain (.file "program.txt") none [.imitation]

theorem from_imitating {w : World} {program : Program}
    (hreads : w.Reads "program.txt" text.toUTF8) (hsize : text.utf8ByteSize ≤ 1048576)
    (hprogram : Program.read ({} : Settings).limits text = .ok program) :
    Job.From w {} (.file "program.txt") none
      ⟨{}, ⟨"program.txt", text⟩, program, Templates.builtin, "output"⟩ where
  inForce := rfl
  given := ⟨rfl, hreads, hsize⟩
  read := hprogram
  loaded := ⟨none, none, .none, .none, rfl⟩
  placed := rfl

/-- Without a settings file the settings are those that are built in. -/
theorem loads_of_missing {invocation : Invocation} {w : World}
    (hfile : invocation.settingsFile? = none) (henvironment : w.environment = [])
    (hread : w.reading Settings.defaultFileName = .error .notFound) :
    invocation.Loads w {} := by
  rw [Invocation.Loads, loadSettings_eq, hfile, henvironment]
  dsimp only [Option.none_or, List.lookup_nil, Option.getD_none]
  rw [settingsPathFault_default, hread]
  rfl

/-- A script is written whatever its size is, and not accepted if it is larger than 16 MiB. -/
theorem rejected_of_large {program : Program} {script : String}
    (hsize : text.utf8ByteSize ≤ 1048576)
    (hprogram : Program.read ({} : Settings).limits text = .ok program)
    (hscript : program.script Templates.builtin .imitation = .ok script)
    (hlarge : Job.maxScriptBytes < script.utf8ByteSize) :
    imitating.Rejected (programWorld text)
      ["compile", "--input", "program.txt", "--target", "imitation"]
      ["check", "--input", "program.txt", "--target", "imitation"] := by
  have hobliging := obliging_programWorld text
  have hposed : imitating.Posed (programWorld text)
      ["compile", "--input", "program.txt", "--target", "imitation"]
      ["check", "--input", "program.txt", "--target", "imitation"] := by
    refine ⟨by decide +kernel, by decide +kernel, loads_of_missing rfl rfl rfl, rfl, ?_⟩
    show ∀ path ∈ ["causal-compiler.toml", "program.txt"], ∀ target ∈ [Target.imitation],
      (programWorld "").tree.spot path ≠ (programWorld "").tree.spot (imitating.output target)
    decide +kernel
  obtain ⟨tree, hreplaces, hread, hmissing⟩ := exists_replaces_programWorld text script.toUTF8
  let job : Job := ⟨{}, ⟨"program.txt", text⟩, program, Templates.builtin, "output"⟩
  have hpath : job.path .imitation = "output/imitation.py" := by
    show Path.join "output" ({} : Settings).output.imitationFile = _
    decide +kernel
  have htemporary : job.temporary 0 .imitation = "output/.imitation.py.0.tmp" := by
    rw [Job.temporary, hpath]
    decide +kernel
  have hmakes : (programWorld text).makingFirst (programWorld text).tree (Path.ancestors "output") =
      (.ok (), (programWorld text).tree) := by
    rw [ancestors_output]
    exact World.makingFirst_of_isDirectory hobliging rfl
  have hlogs : imitating.invocation.LogsToTerminal (programWorld text) {} :=
    ⟨rfl, isSome_filter_default⟩
  have hcompiles : Compiles (programWorld text) {} (.file "program.txt") none [.imitation] tree :=
    ⟨job, (programWorld text).tree, from_imitating (hobliging.reads rfl) hsize hprogram, hmakes, tree,
      ⟨script, hscript, (hobliging.letsReplace _ _ _).replacing_eq_ok_iff.mpr
        (htemporary ▸ hpath ▸ hreplaces), rfl⟩, rfl⟩
  obtain ⟨code, after, hexecute, hsame, hexact⟩ := compile_exact hposed.compile rfl hposed.loads
    hposed.terminal fun _ _ _ _ => hobliging.logs _ _
  obtain ⟨rfl, rfl⟩ := (hexact tree).mp ⟨hlogs, hcompiles⟩
  refine ⟨hposed, by rw [hexecute], ?_⟩
  have hafter : after.Obliging := by
    have := obliging_after_compile hposed rfl hobliging
    rwa [hexecute] at this
  have hloads : imitating.invocation.Loads after {} :=
    loads_of_missing rfl hsame.environment ((hafter.reading_eq _).trans hmissing)
  obtain ⟨code, final, hcheck, -, hcode, -⟩ := check_again hposed.check rfl hposed.terminal hloads
    fun _ _ _ _ => hafter.logs _ _
  rw [hexecute, hcheck]
  intro hzero
  obtain ⟨-, job, hjob, hcurrent⟩ := hcode.mp hzero
  obtain rfl := (from_imitating (hafter.reads hread) hsize hprogram).unique hjob
  obtain ⟨⟨other, hother, hholds⟩, -⟩ := hcurrent .imitation (List.mem_singleton_self _)
  obtain rfl := Except.ok.inj (hother.symm.trans hscript)
  exact Nat.lt_irrefl _ (Nat.lt_of_lt_of_le hlarge hholds.size)

/-- The text of a program that uses a name of many letters seventeen times. -/
def repeatingText (count : Nat) : String :=
  spaced (Imitation.repeatingTokens (String.ofList (List.replicate count 'x')))

theorem isIn_builtin : Marker.methods.isIn Templates.builtin.imitation = true := by
  have htemplate : Templates.builtin.imitation = "\n".intercalate Template.imitationLines := rfl
  have hmem : Marker.methods.text ∈ Template.imitationLines := by
    rw [Template.imitationLines, Marker.text]
    simp only [List.mem_cons, true_or, or_true]
  rw [htemplate]
  exact Text.holdsMark_intercalate hmem

/-- A text of at most a megabyte can have a script of more than 16 MiB. -/
theorem rejected_of_repeatingText {count : Nat} (hsmall : count + 109 ≤ 1048576)
    (hlarge : Job.maxScriptBytes < 17 * count) :
    imitating.Rejected (programWorld (repeatingText count))
      ["compile", "--input", "program.txt", "--target", "imitation"]
      ["check", "--input", "program.txt", "--target", "imitation"] := by
  have hsize : ∀ n, (String.ofList (List.replicate n 'x')).utf8ByteSize = n := by
    intro n
    induction n with
    | zero => rfl
    | succ n ih =>
      rw [List.replicate_succ, size_ofList_cons, ih]
      exact Nat.add_comm ..
  obtain ⟨rest, rfl⟩ : ∃ rest, count = rest + 1 := Nat.exists_eq_succ_of_ne_zero <| by
    rintro rfl
    exact absurd hlarge (by decide)
  have hname : IsName (String.ofList (List.replicate (rest + 1) 'x')) := by
    have hletters : ∀ d ∈ List.replicate rest 'x', isWordChar d = true := by
      intro d hd
      rw [List.eq_of_mem_replicate hd]
      decide
    have hlist : (String.ofList (List.replicate (rest + 1) 'x')).toList =
        'x' :: List.replicate rest 'x' := by
      rw [String.toList_ofList]
      rfl
    exact Imitation.isName_of_initial hlist (by decide) hletters (by decide)
  have hliteral : literalText (String.ofList (List.replicate (rest + 1) 'x')) =
      String.ofList (List.replicate (rest + 1) 'x') := by
    rw [literalText, String.toList_ofList, List.map_replicate]
    rfl
  have htext : (repeatingText (rest + 1)).utf8ByteSize ≤ 1048576 := by
    rw [repeatingText, Imitation.size_spaced_repeatingTokens, hsize]
    exact hsmall
  obtain ⟨p, q, r, s, hread⟩ :=
    @Imitation.exists_read_repeating _ hname ({} : Settings).limits htext rfl
  obtain ⟨script, hscript, hscriptSize⟩ := Imitation.exists_script_repeating
    isIn_builtin _ 17 p q r s
  refine rejected_of_large htext hread hscript (Nat.lt_of_lt_of_le hlarge ?_)
  rwa [hliteral, hsize] at hscriptSize

end Large

/-! ### Something that is read is changed -/

/-- A program and a temporary file that are one file with two names, and settings with a template. -/
def linkedWorld : World where
  tree := ⟨[(["work"], .directory), (["work", "output"], .directory),
    (["work", "program.txt"], .file 0), (["work", "output", ".facility_domain.py.0.tmp"], .file 0),
    (["work", "template"], .file 1), (["work", "causal-compiler.toml"], .file 2)],
    ["RULES \x7b m() := f() \x7d".toUTF8,
      "    # INSERT CAUSES HERE M = 0 # INSERT M HERE".toUTF8,
      "[templates]\nfacility = \"template\"\n".toUTF8], ["work"]⟩

/-- The task of writing the facility script of that program. -/
def linking : Task :=
  { plain (.file "program.txt") none [.facility] with
    settings := { templates := ⟨some "template", none⟩ } }

/-- The program is overwritten, since it is a temporary file as well. -/
theorem rejected_of_linked :
    linking.Rejected linkedWorld
      ["compile", "--input", "program.txt", "--target", "facility"]
      ["check", "--input", "program.txt", "--target", "facility"] := by
  decide +kernel

/-- A program under the path of a temporary file. -/
def temporaryWorld : World where
  tree := ⟨[(["work"], .directory), (["work", "output"], .directory),
    (["work", "output", ".facility_domain.py.0.tmp"], .file 0)],
    ["RULES \x7b m() := f() \x7d".toUTF8], ["work"]⟩

/-- The program is gone, since it was read from a temporary file. -/
theorem rejected_of_temporary :
    (plain (.file "output/.facility_domain.py.0.tmp") none [.facility]).Rejected temporaryWorld
      ["compile", "--input", "output/.facility_domain.py.0.tmp", "--target", "facility"]
      ["check", "--input", "output/.facility_domain.py.0.tmp", "--target", "facility"] := by
  decide +kernel

/-- Settings that name a template, and that name a script like the temporary file of another. -/
def sharingWorld : World where
  tree := ⟨[(["work"], .directory), (["work", "template"], .file 0),
    (["work", "causal-compiler.toml"], .file 1)],
    ["    # INSERT CAUSES HERE M = 0 # INSERT M HERE # INSERT METHODS HERE".toUTF8,
      ("[output]\nfacility_file = \".imitation.py.0.tmp\"\n" ++
        "[templates]\nfacility = \"template\"\nimitation = \"template\"\n").toUTF8], ["work"]⟩

/-- The task of writing scripts with those settings. -/
def sharing : Task :=
  { plain (.text "RULES \x7b m() := f() \x7d") none Target.all with
    settings := ⟨{ facilityFile := ".imitation.py.0.tmp" }, ⟨some "template", some "template"⟩, {},
      .caps⟩ }

/-- The template of both scripts. -/
def sharedTemplate : String :=
  "    # INSERT CAUSES HERE M = 0 # INSERT M HERE # INSERT METHODS HERE"

/-- The text of those settings. -/
def sharedSettings : String :=
  "[output]\nfacility_file = \".imitation.py.0.tmp\"\n" ++
    "[templates]\nfacility = \"template\"\nimitation = \"template\"\n"

/-- The scripts of a program for that task. -/
def sharingJob (program : Program) : Job :=
  ⟨sharing.settings, ⟨message "input.text_label" [], "RULES \x7b m() := f() \x7d"⟩, program,
    ⟨sharedTemplate, sharedTemplate⟩, "output"⟩

/-- What compiling for both targets leaves: the settings, and nothing where the first script was. -/
structure LeftBySharing (tree : FileTree) : Prop where
  settings : tree.read Settings.defaultFileName = .ok sharedSettings.toUTF8
  missing : tree.read "output/.imitation.py.0.tmp" = .error .notFound
  gone : tree.entry? ["work", "output", ".imitation.py.0.tmp"] = none

section Sharing

variable {w : World} {tree made between : FileTree} {program : Program}

theorem loads_sharing (henvironment : w.environment = [])
    (hread : w.reading Settings.defaultFileName = .ok sharedSettings.toUTF8) :
    sharing.invocation.Loads w sharing.settings := by
  have hsize : ¬Settings.maxFileBytes < sharedSettings.toUTF8.size := by decide +kernel
  have htext : Settings.ofText sharedSettings = .ok sharing.settings := by decide +kernel
  rw [Invocation.Loads, loadSettings_eq, henvironment]
  show (match settingsPathFault? Settings.defaultFileName, w.reading Settings.defaultFileName with
      | some fault, _ => .error (.invalid fault)
      | none, .ok content => settingsOfContent content
      | none, .error failure => _) = Except.ok sharing.settings
  rw [settingsPathFault_default, hread]
  show settingsOfContent _ = _
  rw [settingsOfContent, if_neg hsize, fromUTF8?_eq_some_iff.mpr rfl]
  exact htext

theorem from_sharing (hreads : w.Reads "template" sharedTemplate.toUTF8)
    (hprogram : Program.read sharing.settings.limits "RULES \x7b m() := f() \x7d" = .ok program) :
    Job.From w sharing.settings sharing.source none (sharingJob program) where
  inForce := rfl
  given := ⟨rfl, by decide +kernel⟩
  read := hprogram
  loaded := ⟨some sharedTemplate, some sharedTemplate, .some ⟨hreads, by decide +kernel⟩,
    .some ⟨hreads, by decide +kernel⟩, (by decide +kernel : Templates.ofGiven (some sharedTemplate)
      (some sharedTemplate) = .ok ⟨sharedTemplate, sharedTemplate⟩)⟩
  placed := rfl

/-- A program that is read, and the scripts that are made from it. -/
structure MadeBySharing (program : Program) (facility imitation : String) : Prop where
  read : Program.read sharing.settings.limits "RULES \x7b m() := f() \x7d" = .ok program
  facility : program.script ⟨sharedTemplate, sharedTemplate⟩ .facility = .ok facility
  imitation : program.script ⟨sharedTemplate, sharedTemplate⟩ .imitation = .ok imitation

/-- Both scripts are made. -/
theorem exists_scripts_sharing : ∃ program facility imitation,
    MadeBySharing program facility imitation := by
  have hscripts : ((Program.read sharing.settings.limits
      "RULES \x7b m() := f() \x7d").toOption.any fun program =>
        (program.script ⟨sharedTemplate, sharedTemplate⟩ .facility).isOk &&
          (program.script ⟨sharedTemplate, sharedTemplate⟩ .imitation).isOk) = true := by
    decide +kernel
  obtain ⟨program, hread, hscripts⟩ := exists_of_any_toOption hscripts
  obtain ⟨hfacility, himitation⟩ := Bool.and_eq_true_iff.mp hscripts
  obtain ⟨facility, hfacility⟩ := exists_of_isOk hfacility
  obtain ⟨imitation, himitation⟩ := exists_of_isOk himitation
  exact ⟨program, facility, imitation, hread, hfacility, himitation⟩

theorem join_sharing :
    Path.join "output" ".imitation.py.0.tmp" = "output/.imitation.py.0.tmp" := by
  decide +kernel

/-- The file of the facility script is the temporary file of the imitation script. -/
theorem paths_sharing (program : Program) :
    (sharingJob program).path .facility = "output/.imitation.py.0.tmp" ∧
      (sharingJob program).temporary 0 .facility = "output/..imitation.py.0.tmp.0.tmp" ∧
      (sharingJob program).path .imitation = "output/imitation.py" ∧
      (sharingJob program).temporary 0 .imitation = "output/.imitation.py.0.tmp" := by
  have hfacility : (sharingJob program).path .facility = "output/.imitation.py.0.tmp" :=
    join_sharing
  have himitation : (sharingJob program).path .imitation = "output/imitation.py" := by
    show Path.join "output" "imitation.py" = _
    decide +kernel
  rw [Job.temporary, Job.temporary, hfacility, himitation]
  exact ⟨rfl, by decide +kernel, rfl, by decide +kernel⟩

/-- What compiling comes to where those files are, and nothing is refused. -/
theorem execute_sharing {targets : List Target} {arguments : List String}
    (harguments : Libraries.arguments arguments = .ok { sharing with targets := targets }.compiling)
    (hobliging : w.Obliging) (henvironment : w.environment = [])
    (hread : w.tree.read Settings.defaultFileName = .ok sharedSettings.toUTF8)
    (hcompiles : Compiles w sharing.settings sharing.source none targets tree) :
    ∃ after, (execute arguments : Step Nat) w = (0, after) ∧ after.Resembles (w.withTree tree) := by
  have hlogs : sharing.invocation.LogsToTerminal w sharing.settings := by
    refine ⟨rfl, ?_⟩
    rw [Invocation.directive, henvironment]
    exact isSome_filter_default
  have hloads := loads_sharing henvironment ((hobliging.reading_eq _).trans hread)
  obtain ⟨code, after, hexecute, hsame, hexact⟩ := @compile_exact { sharing with targets := targets } w
    _ arguments harguments rfl hloads rfl fun _ _ _ _ => hobliging.logs _ _
  obtain ⟨rfl, rfl⟩ := (hexact tree).mp ⟨hlogs, hcompiles⟩
  exact ⟨after, hexecute, hsame⟩

end Sharing

theorem obliging_sharingWorld : sharingWorld.Obliging := fun _ _ => rfl

/-- Both scripts are written, and the second one is moved away from where the first one was. -/
theorem exists_replaces_sharing (facility imitation : ByteArray) : ∃ made between tree : FileTree,
    sharingWorld.makingFirst sharingWorld.tree ["output"] = (.ok (), made) ∧
      made.Replaces "output/..imitation.py.0.tmp.0.tmp" "output/.imitation.py.0.tmp" facility
        between ∧
      between.Replaces "output/.imitation.py.0.tmp" "output/imitation.py" imitation tree ∧
      LeftBySharing tree :=
  ⟨_, _, _, rfl, ⟨_, rfl, rfl⟩, ⟨_, rfl, rfl⟩, rfl, rfl, rfl⟩

/-- Compiling for both targets succeeds. -/
theorem execute_sharing_all {arguments : List String}
    (harguments : Libraries.arguments arguments = .ok sharing.compiling) :
    ∃ after, (execute arguments : Step Nat) sharingWorld = (0, after) ∧ after.Obliging ∧
      after.environment = [] ∧ LeftBySharing after.tree := by
  obtain ⟨program, facility, imitation, hscripts⟩ := exists_scripts_sharing
  obtain ⟨made, between, tree, hmade, hfirst, hsecond, hleft⟩ :=
    exists_replaces_sharing facility.toUTF8 imitation.toUTF8
  obtain ⟨hpath, htemporary, hpath', htemporary'⟩ := paths_sharing program
  have hreplacing : ∀ {tree tree' temporary path content}, tree.Replaces temporary path content tree' →
      sharingWorld.replacing tree temporary path content = .ok tree' :=
    (obliging_sharingWorld.letsReplace _ _ _).replacing_eq_ok_iff.mpr
  have hcompiles : Compiles sharingWorld sharing.settings sharing.source none Target.all tree :=
    ⟨sharingJob program, made, from_sharing (obliging_sharingWorld.reads rfl) hscripts.read,
      (congrArg _ ancestors_output).trans hmade, between,
      ⟨facility, hscripts.facility, hreplacing (htemporary ▸ hpath ▸ hfirst), rfl⟩, tree,
      ⟨imitation, hscripts.imitation, hreplacing (htemporary' ▸ hpath' ▸ hsecond), rfl⟩, rfl⟩
  obtain ⟨after, hexecute, hsame⟩ :=
    execute_sharing harguments obliging_sharingWorld rfl rfl hcompiles
  exact ⟨after, hexecute, hsame.obliging obliging_sharingWorld, hsame.environment, hsame.tree ▸ hleft⟩

/-- The first script is gone, since it was the temporary file of the second one. -/
theorem rejected_of_later :
    sharing.Rejected sharingWorld
      ["compile", "--text", "RULES \x7b m() := f() \x7d"]
      ["check", "--text", "RULES \x7b m() := f() \x7d"] := by
  have hposed : sharing.Posed sharingWorld
      ["compile", "--text", "RULES \x7b m() := f() \x7d"]
      ["check", "--text", "RULES \x7b m() := f() \x7d"] :=
    ⟨by decide +kernel, by decide +kernel, loads_sharing rfl rfl, rfl, by decide +kernel⟩
  obtain ⟨after, hexecute, hobliging, henvironment, hleft⟩ := execute_sharing_all hposed.compile
  refine ⟨hposed, by rw [hexecute], ?_⟩
  rw [hexecute]
  obtain ⟨code, final, hcheck, -, hcode, -⟩ := check_again hposed.check rfl hposed.terminal
    (loads_sharing henvironment ((hobliging.reading_eq _).trans hleft.settings))
    fun _ _ _ _ => hobliging.logs _ _
  rw [hcheck]
  intro hzero
  obtain ⟨-, job, hjob, hcurrent⟩ := hcode.mp hzero
  obtain ⟨⟨script, -, hholds⟩, -⟩ := hcurrent .facility (List.mem_cons_self ..)
  have hpath : job.path .facility = "output/.imitation.py.0.tmp" := by
    rw [Job.path, hjob.inForce, hjob.placed]
    exact join_sharing
  rw [hpath] at hholds
  cases hleft.missing.symm.trans hholds.reads.content

/-- A directory is made where the settings file was looked for. -/
theorem rejected_of_directory :
    (plain (.text "RULES \x7b m() := f() \x7d") (some "causal-compiler.toml")
      [.facility]).Rejected unwritten
        ["compile", "--text", "RULES \x7b m() := f() \x7d", "--out-dir", "causal-compiler.toml",
          "--target", "facility"]
        ["check", "--text", "RULES \x7b m() := f() \x7d", "--out-dir", "causal-compiler.toml",
          "--target", "facility"] := by
  decide +kernel

end Task

end CommandLine

end CausalRules
