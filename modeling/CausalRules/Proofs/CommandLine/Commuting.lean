import CausalRules.Proofs.CommandLine.Settling
import CausalRules.Proofs.CommandLine.Starting

/-!
# Targets commute

Compiling both targets in one run comes to the same as compiling them in two runs, one after the other,
in either order. That is so where what the system refuses does not depend on the files that there are,
and where writing one target does not disturb the other.

- `Job.Writable`: a target's script is made, and the system lets it be written.
- `Job.Fills`: the targets that are writable were written, and nothing else was changed;
  `fills_of_becomes` for one target, `Job.Fills.together` for the targets of two runs.
- `Task.Alters`: what a run that compiles can change; `Task.ends_commute` for one run after the other,
  once they have started.
- `Task.Distinct`, `Task.Separate`: what is written is nothing that is read, or needed otherwise.
- `started_commute`: whole runs that start. `targets_commute` says the same of the command line, where
  runs may also fail to start; `targets_interfere` shows what can go wrong.
-/

namespace CausalRules

/-! ## Worlds that refuse the same -/

namespace World

section Refusing

variable {v w : World} {tree : FileTree} {temporary path : String} {content : ByteArray}

theorem Steady.of_refuses_eq (h : w.Steady) (hrefuses : v.refuses = w.refuses) : v.Steady := by
  refine ⟨fun tree tree' operation => ?_, fun tree path => ?_⟩
  · rw [hrefuses]
    exact h.same tree tree' operation
  · rw [Grants, hrefuses]
    exact h.finds tree path

theorem grants_congr (hrefuses : v.refuses = w.refuses) {operation : Operation} :
    v.Grants tree operation ↔ w.Grants tree operation := by
  rw [Grants, Grants, hrefuses]

theorem retains_congr (hrefuses : v.refuses = w.refuses) : v.Retains path ↔ w.Retains path :=
  exists_congr fun _ => not_congr (grants_congr hrefuses)

theorem letsReplace_congr (hrefuses : v.refuses = w.refuses) :
    v.LetsReplace temporary path content ↔ w.LetsReplace temporary path content := by
  have himp : ∀ {v w : World}, v.refuses = w.refuses → v.LetsReplace temporary path content →
      w.LetsReplace temporary path content := fun hrefuses h =>
    ⟨fun tree => (grants_congr hrefuses).mp (h.create tree),
      fun tree => (grants_congr hrefuses).mp (h.extend tree),
      fun tree => (grants_congr hrefuses).mp (h.sync tree),
      fun tree => (grants_congr hrefuses).mp (h.rename tree)⟩
  exact ⟨himp hrefuses, himp hrefuses.symm⟩

theorem makingFirst_congr (hrefuses : v.refuses = w.refuses) (tree : FileTree) (paths : List String) :
    v.makingFirst tree paths = w.makingFirst tree paths := by
  have hmake : v.makeDirectory = w.makeDirectory := by
    funext tree path
    rw [makeDirectory, makeDirectory, answer, answer, hrefuses]
  have hunless : v.unlessDirectory = w.unlessDirectory := by
    funext tree path failure
    rw [unlessDirectory, unlessDirectory, isDirectory, isDirectory, answer, answer, hrefuses]
  induction paths with
  | nil => rfl
  | cons path above ih => simp only [makingFirst, hmake, hunless, ih]

end Refusing

end World

namespace CommandLine

open World (Step)
open FileTree (Keeps SameDirectories Settled SameFiles)

/-! ## What targets come to -/

/-- A target's script is made, and the system lets it be written in a run of the given number. -/
def Job.Writable (job : Job) (w : World) (number : Nat) (tree : FileTree) (target : Target) : Prop :=
  ∃ script, job.program.script job.templates target = .ok script ∧
    w.LetsReplace (job.temporary number target) (job.path target) script.toUTF8 ∧
      tree.Fits (job.temporary number target) ∧ tree.Fits (job.path target)

/-- The files of those targets that are writable hold their scripts, and nothing else was changed. -/
structure Job.Fills (job : Job) (w : World) (number : Nat) (targets : List Target)
    (tree tree' : FileTree) : Prop where
  settled : Settled (fun l => ∃ target ∈ targets, job.Writable w number tree target ∧
    l = tree.spot (job.path target)) tree tree'
  scripts : ∀ target ∈ targets, ∀ script, job.program.script job.templates target = .ok script →
    job.Writable w number tree target → tree'.HasFile (tree.spot (job.path target)) script.toUTF8

/-- It can be reported that a target was written. -/
def Job.Announces (job : Job) (w : World) (target : Target) : Prop :=
  w.Grants w.tree (.print (job.report "compile.wrote" target))

section Filling

variable {v w : World} {job : Job} {number number' : Nat} {target other : Target}
  {targets targets' : List Target} {tree tree' tree'' between : FileTree}
  {outcome : Except String Unit} {success : Prop}

/-- Whether a target is writable depends on where directories stand. -/
theorem Job.writable_iff (h : SameDirectories tree tree') :
    job.Writable w number tree' target ↔ job.Writable w number tree target := by
  rw [Writable, Writable, h.fits_iff, h.fits_iff]

theorem Job.writable_congr (hrefuses : v.refuses = w.refuses) :
    job.Writable v number tree target ↔ job.Writable w number tree target :=
  exists_congr fun _ => and_congr_right fun _ => and_congr_left fun _ =>
    World.letsReplace_congr hrefuses

/-- **A target is written exactly if it is writable**, where no file has its temporary path and what is
refused does not depend on the files. -/
theorem fills_of_becomes (hsteady : w.Steady) (hsound : tree.Sound)
    (hfree : tree.NoFile (tree.spot (job.temporary w.runNumber target)))
    (hremoved : ¬w.Retains (job.temporary w.runNumber target))
    (h : job.Becomes w target tree outcome tree') :
    (outcome = .ok () ↔ job.Writable w w.runNumber tree target) ∧
      job.Fills w w.runNumber [target] tree tree' := by
  have hsettles := settles_of_becomes hsound hfree h
  have hok : outcome = .ok () ↔ job.Writable w w.runNumber tree target := by
    have hreplacing : ∀ {script : String}, (∃ tree', w.replacing tree
        (job.temporary w.runNumber target) (job.path target) script.toUTF8 = .ok tree') ↔ _ :=
      World.exists_replacing_iff hsteady hsound hfree (endsWithSlash_temporaryPath _ _)
    cases h with
    | unmade hscript =>
      refine ⟨nofun, ?_⟩
      rintro ⟨script, hmade, -⟩
      cases hscript.symm.trans (Job.script_eq_ok.mpr hmade)
    | written hscript hreplaced =>
      exact ⟨fun _ => ⟨_, Job.script_eq_ok.mp hscript, hreplacing.mp ⟨_, hreplaced⟩⟩, fun _ => rfl⟩
    | unwritten hscript hfails =>
      refine ⟨nofun, ?_⟩
      rintro ⟨script, hmade, hwritable⟩
      obtain rfl := Except.ok.inj (hscript.symm.trans (Job.script_eq_ok.mpr hmade))
      obtain ⟨_, hreplaced⟩ := hreplacing.mpr hwritable
      cases hfails.symm.trans hreplaced
  refine ⟨hok, hsettles.settled.mono ?_,
    List.forall_mem_singleton.mpr fun script hscript hwritable => ?_⟩
  · rintro l (⟨hwritten, hl⟩ | ⟨-, hkept, -⟩)
    · exact ⟨target, List.mem_singleton_self _, hok.mp hwritten, hl⟩
    · exact (hremoved ⟨_, hkept⟩).elim
  · obtain ⟨script', hscript', hfile⟩ := hsettles.script (hok.mpr hwritable)
    obtain rfl := Except.ok.inj (hscript'.symm.trans hscript)
    exact hfile

/-- One target and then the others. -/
theorem Job.Fills.cons (hnamed : job.settings.output.Named)
    (h : job.Fills w number [target] tree between) (h' : job.Fills w number targets between tree') :
    job.Fills w number (target :: targets) tree tree' := by
  have hsame := h.settled.directories
  have hrest : ∀ l, (∃ other ∈ targets, job.Writable w number between other ∧
      l = between.spot (job.path other)) ↔ ∃ other ∈ targets, job.Writable w number tree other ∧
        l = tree.spot (job.path other) := by
    simp only [Job.writable_iff hsame, hsame.spot_eq, implies_true]
  refine ⟨(h.settled.mono ?_).trans (h'.settled.mono ?_), List.forall_mem_cons.mpr ⟨?_, ?_⟩⟩
  · rintro l ⟨_, hmem, hl⟩
    exact ⟨target, List.mem_cons_self, List.mem_singleton.mp hmem ▸ hl⟩
  · intro l hl
    obtain ⟨other, hother, hl⟩ := (hrest l).mp hl
    exact ⟨other, List.mem_cons_of_mem _ hother, hl⟩
  · intro script hscript hwritable
    by_cases hagain : target ∈ targets
    · rw [← hsame.spot_eq]
      exact h'.scripts target hagain script hscript ((Job.writable_iff hsame).mpr hwritable)
    · refine h'.settled.hasFile ?_ (h.scripts target (List.mem_singleton_self _) script hscript
        hwritable)
      -- the other targets have other files
      rw [hrest]
      rintro ⟨other, hother, -, heq⟩
      have hne : target ≠ other := fun htarget => hagain (htarget ▸ hother)
      exact spot_path_ne hnamed hne heq
  · intro other hother script hscript hwritable
    rw [← hsame.spot_eq]
    exact h'.scripts other hother script hscript ((Job.writable_iff hsame).mpr hwritable)

/-- The number of a run matters for whether its temporary files can be used. -/
theorem Job.Fills.congr (h : job.Fills v number targets tree tree')
    (hwritable : ∀ target ∈ targets,
      job.Writable v number tree target ↔ job.Writable w number' tree target) :
    job.Fills w number' targets tree tree' := by
  refine ⟨h.settled.mono ?_, fun target htarget script hscript hw =>
    h.scripts target htarget script hscript ((hwritable target htarget).mpr hw)⟩
  rintro l ⟨target, htarget, hw, hl⟩
  exact ⟨target, htarget, (hwritable target htarget).mp hw, hl⟩

/-- The order of targets does not matter. -/
theorem Job.Fills.of_mem_iff (h : job.Fills w number targets tree tree')
    (hmem : ∀ target, target ∈ targets ↔ target ∈ targets') :
    job.Fills w number targets' tree tree' := by
  refine ⟨h.settled.mono ?_, fun target htarget => h.scripts target ((hmem target).mpr htarget)⟩
  rintro l ⟨target, htarget, hl⟩
  exact ⟨target, (hmem target).mp htarget, hl⟩

/-- What targets come to is decided by the files that are there. -/
theorem Job.Fills.sameFiles (h : job.Fills w number targets tree tree')
    (h' : job.Fills w number targets tree tree'') : SameFiles (fun _ => False) tree' tree'' := by
  refine ⟨h.settled.directories.symm.trans h'.settled.directories, fun l _ content => ?_,
    fun _ => False.elim⟩
  by_cases hl : ∃ target ∈ targets, job.Writable w number tree target ∧
      l = tree.spot (job.path target)
  · obtain ⟨target, htarget, hwritable, rfl⟩ := hl
    obtain ⟨script, hscript, -⟩ := id hwritable
    have hfile := h.scripts target htarget script hscript hwritable
    have hfile' := h'.scripts target htarget script hscript hwritable
    constructor
    · exact fun hcontent => hfile'.unique hcontent ▸ hfile
    · exact fun hcontent => hfile.unique hcontent ▸ hfile'
  · rw [h.settled.hasFile_iff hl, h'.settled.hasFile_iff hl]

theorem Target.mem_pair_iff {first second : Target} (hne : first ≠ second) (target : Target) :
    target ∈ [first, second] ↔ target ∈ Target.all := by
  revert hne
  cases first <;> cases second <;> cases target <;> decide

/-- One target and then the other, each in a run of its own, come to what both come to together. -/
theorem Job.Fills.together {u : World} {first second : Target} {run run₁ run₂ : Nat}
    (hnamed : job.settings.output.Named) (hne : first ≠ second)
    (hfirst : job.Writable v run₁ tree first ↔ job.Writable w run tree first)
    (hsecond : job.Writable u run₂ tree second ↔ job.Writable w run tree second)
    (h : job.Fills v run₁ [first] tree between) (h' : job.Fills u run₂ [second] between tree') :
    job.Fills w run Target.all tree tree' := by
  have hsame := h.settled.directories
  refine ((h.congr ?_).cons hnamed (h'.congr ?_)).of_mem_iff (Target.mem_pair_iff hne)
  · exact List.forall_mem_singleton.mpr hfirst
  · refine List.forall_mem_singleton.mpr ?_
    rw [Job.writable_iff hsame, Job.writable_iff hsame]
    exact hsecond

/-- What a target that was written is reported by. -/
theorem Job.announces_iff (hsteady : w.Steady) :
    outcome = .ok () ∧ w.Grants tree (job.announcement target outcome) ↔
      outcome = .ok () ∧ job.Announces w target := by
  refine and_congr_right ?_
  rintro rfl
  exact hsteady.grants_iff

theorem Job.announces_congr (hsteady : w.Steady) (hrefuses : v.refuses = w.refuses) :
    job.Announces v target ↔ job.Announces w target :=
  (World.grants_congr hrefuses).trans hsteady.grants_iff

theorem Job.Runs.of_singleton (h : job.Runs w [target] tree tree' success) :
    ∃ outcome, job.Becomes w target tree outcome tree' ∧
      (success ↔ outcome = .ok () ∧ w.Grants tree' (job.announcement target outcome)) := by
  cases h with
  | stopped hbecomes hrefused hfails =>
    exact ⟨_, hbecomes, fun h => (hfails h).elim, fun h => (hrefused h.2).elim⟩
  | next hbecomes hgrants hrest hsuccess =>
    cases hrest with
    | done hrest =>
      exact ⟨_, hbecomes, hsuccess.trans (and_congr_right fun _ => iff_of_true hrest hgrants)⟩

/-- A target in a run of its own is written if it is writable, and the run succeeds if that can be
reported. -/
theorem fills_of_runs_singleton (hsteady : w.Steady) (hclear : job.Clear w.runNumber [target] tree)
    (hremoved : ¬w.Retains (job.temporary w.runNumber target))
    (h : job.Runs w [target] tree tree' success) :
    job.Fills w w.runNumber [target] tree tree' ∧
      (success ↔ job.Writable w w.runNumber tree target ∧ job.Announces w target) := by
  obtain ⟨outcome, hbecomes, hsuccess⟩ := h.of_singleton
  obtain ⟨hok, hfills⟩ :=
    fills_of_becomes hsteady hclear.sound (hclear.free _ List.mem_cons_self) hremoved hbecomes
  refine ⟨hfills, ?_⟩
  rw [hsuccess, Job.announces_iff hsteady, hok]

/-- Two targets are written in a run if they are writable, as long as it can be reported what became of
the first. -/
theorem fills_of_runs_pair (hsteady : w.Steady) (hnamed : job.settings.output.Named)
    (hclear : job.Clear w.runNumber [target, other] tree)
    (hremoved : ∀ one ∈ [target, other], ¬w.Retains (job.temporary w.runNumber one))
    (hreported : ∀ outcome between, job.Becomes w target tree outcome between →
      w.Grants between (job.announcement target outcome))
    (h : job.Runs w [target, other] tree tree' success) :
    job.Fills w w.runNumber [target, other] tree tree' ∧
      (success ↔ ∀ one ∈ [target, other],
        job.Writable w w.runNumber tree one ∧ job.Announces w one) := by
  obtain ⟨hremoved, hothers⟩ := List.forall_mem_cons.mp hremoved
  cases h with
  | stopped hbecomes hrefused => exact (hrefused (hreported _ _ hbecomes)).elim
  | next hbecomes hgrants hrest hsuccess =>
    have hfree := hclear.free _ List.mem_cons_self
    have hclear' := hclear.tail hnamed (settles_of_becomes hclear.sound hfree hbecomes)
    obtain ⟨hok, hfills⟩ := fills_of_becomes hsteady hclear.sound hfree hremoved hbecomes
    obtain ⟨hfills', hsuccess'⟩ := fills_of_runs_singleton hsteady hclear'
      (hothers _ (List.mem_singleton_self _)) hrest
    refine ⟨hfills.cons hnamed hfills', ?_⟩
    rw [hsuccess, hsuccess', hok, Job.writable_iff hfills.settled.directories, List.forall_mem_cons,
      List.forall_mem_singleton]
    refine and_congr_left fun _ => ⟨fun hwritable => ⟨hwritable, ?_⟩, And.left⟩
    exact ((Job.announces_iff hsteady).mp ⟨hok.mpr hwritable, hgrants⟩).2

end Filling

/-! ## What runs come to -/

section Ends

variable {w v u : World} {task : Task} {targets : List Target} {success : Prop} {tree : FileTree}
  {settings : Settings} {source : Source} {outDir? : Option String} {job : Job}

/-! Which of its ends a run comes to is decided by the files that it finds. -/

theorem Ends.of_unread (h : Ends w settings source outDir? targets success tree)
    (hunread : ∀ job, ¬Job.From w settings source outDir? job) : ¬success ∧ tree = w.tree := by
  cases h with
  | unread _ hfails htree => exact ⟨hfails, htree⟩
  | unmade job _ hfrom => exact (hunread job hfrom).elim
  | made job _ hfrom => exact (hunread job hfrom).elim

theorem Ends.of_unmade {failure : Failure} {made : FileTree}
    (h : Ends w settings source outDir? targets success tree)
    (hfrom : Job.From w settings source outDir? job)
    (hmaking : w.makingFirst w.tree (Path.ancestors job.outDir) = (.error failure, made)) :
    ¬success ∧ tree = made := by
  cases h with
  | unread hunread => exact (hunread job hfrom).elim
  | unmade other _ hother hmaking' _ hfails =>
    obtain rfl := hfrom.unique hother
    obtain ⟨-, rfl⟩ := Prod.mk.inj (hmaking'.symm.trans hmaking)
    exact ⟨hfails, rfl⟩
  | made other _ hother hmaking' =>
    obtain rfl := hfrom.unique hother
    cases (Prod.mk.inj (hmaking'.symm.trans hmaking)).1

theorem Ends.of_made {made : FileTree} (h : Ends w settings source outDir? targets success tree)
    (hfrom : Job.From w settings source outDir? job)
    (hmaking : w.makingFirst w.tree (Path.ancestors job.outDir) = (.ok (), made)) :
    job.Runs w targets made tree success ∧
      MakesAmong (Path.ancestors job.outDir) w.tree made := by
  cases h with
  | unread hunread => exact (hunread job hfrom).elim
  | unmade other _ hother hmaking' =>
    obtain rfl := hfrom.unique hother
    cases (Prod.mk.inj (hmaking'.symm.trans hmaking)).1
  | made other _ hother hmaking' hmakes hruns =>
    obtain rfl := hfrom.unique hother
    obtain ⟨-, rfl⟩ := Prod.mk.inj (hmaking'.symm.trans hmaking)
    exact ⟨hruns, hmakes⟩

namespace Task

/-- A run changes no files but those of its targets, and makes nothing but directories. -/
structure Alters (task : Task) (targets : List Target) (tree tree' : FileTree) : Prop where
  keeps : Keeps (fun l => ∃ target ∈ targets, l = tree.spot (task.output target))
    (fun l => ∃ path ∈ Path.ancestors task.outDir, l = tree.spot path) tree tree'
  files : ∀ l number, (∀ target ∈ targets, l ≠ tree.spot (task.output target)) →
    tree'.entry? l = some (.file number) → tree.entry? l = some (.file number)
  sound : tree'.Sound

theorem alters_of_makes (hsound : w.tree.Sound)
    (h : MakesAmong (Path.ancestors task.outDir) w.tree tree) : task.Alters targets w.tree tree :=
  ⟨h.keeps.mono (fun _ => False.elim) fun _ => id, fun l number _ => h.file l number,
    (h.ready (fun _ => False) ⟨hsound, nofun⟩).sound⟩

/-- Scripts can be written one after the other, each in a run of the given number: no files stand at
the temporary paths, no earlier script has one of them, and the system lets temporary files be
removed. -/
structure Free (task : Task) (w : World) (writes : List (Nat × Target)) : Prop where
  sound : w.tree.Sound
  free : ∀ write ∈ writes,
    w.tree.NoFile (w.tree.spot (temporaryPath (task.output write.2) write.1))
  later : writes.Pairwise fun write later =>
    w.tree.spot (task.output write.2) ≠ w.tree.spot (temporaryPath (task.output later.2) later.1)
  removed : ∀ write ∈ writes, ¬w.Retains (temporaryPath (task.output write.2) write.1)

section Free

variable {run : Nat} {number? : Option Nat} {writes writes' : List (Nat × Target)}

theorem Free.sublist (h : task.Free w writes) (hsub : writes'.Sublist writes) : task.Free w writes' :=
  ⟨h.sound, fun write hwrite => h.free write (hsub.subset hwrite), h.later.sublist hsub,
    fun write hwrite => h.removed write (hsub.subset hwrite)⟩

theorem Free.of_eq (h : task.Free w writes) (htree : v.tree = w.tree)
    (hrefuses : v.refuses = w.refuses) : task.Free v writes := by
  refine ⟨?_, ?_, ?_, fun write hwrite hkept =>
    h.removed write hwrite ((World.retains_congr hrefuses).mp hkept)⟩
  · exact htree ▸ h.sound
  · exact htree ▸ h.free
  · exact htree ▸ h.later

theorem Free.clear (h : task.Free w (targets.map (run, ·))) (hnodup : targets.Nodup)
    (hfrom : Job.From v task.settings task.source task.outDir? job) :
    job.Clear run targets w.tree := by
  refine ⟨h.sound, hnodup, fun target htarget => ?_, ?_⟩
  · rw [Job.temporary, path_eq hfrom]
    exact h.free (run, target) (List.mem_map.mpr ⟨target, htarget, rfl⟩)
  · simpa only [Job.temporary, path_eq hfrom, List.pairwise_map] using h.later

theorem Free.not_retains (h : task.Free w (targets.map (run, ·)))
    (hfrom : Job.From v task.settings task.source task.outDir? job) :
    ∀ target ∈ targets, ¬w.Retains (job.temporary run target) := by
  intro target htarget
  rw [Job.temporary, path_eq hfrom]
  exact h.removed (run, target) (List.mem_map.mpr ⟨target, htarget, rfl⟩)

theorem Free.misses (h : task.Free w writes) {target : Target} (hwrite : (run, target) ∈ writes) :
    w.tree.Misses number? (temporaryPath (task.output target) run) := fun number _ hentry =>
  h.free (run, target) hwrite number hentry

end Free

/-- What a run changes whose temporary files are removed. -/
theorem alters_of_ends (hnamed : task.settings.output.Named) (hnodup : targets.Nodup)
    (hfree : task.Free w (targets.map (w.runNumber, ·)))
    (h : Ends w task.settings task.source task.outDir? targets success tree) :
    task.Alters targets w.tree tree := by
  cases h with
  | unread hunread hfails htree =>
    subst htree
    exact ⟨.refl _, fun _ _ _ => id, hfree.sound⟩
  | unmade job failure hfrom hmaking hmakes hfails =>
    rw [(hfrom.placed : job.outDir = task.outDir)] at hmakes
    exact alters_of_makes hfree.sound hmakes
  | made job made hfrom hmaking hmakes hruns =>
    have hspares := spares_of_runs (hfrom.inForce ▸ hnamed)
      ((hfree.clear hnodup hfrom).makes hmakes) hruns
    rw [(hfrom.placed : job.outDir = task.outDir)] at hmakes
    have halters : task.Alters targets w.tree made := alters_of_makes hfree.sound hmakes
    have hreplaced : ∀ l, (∃ target ∈ targets, l = made.spot (job.path target) ∨
        w.Retains (job.temporary w.runNumber target) ∧
          l = made.spot (job.temporary w.runNumber target)) →
            ∃ target ∈ targets, l = w.tree.spot (task.output target) := by
      rintro l ⟨target, htarget, rfl | ⟨hkept, -⟩⟩
      · exact ⟨target, htarget, by rw [hmakes.keeps.spot_eq, path_eq hfrom]⟩
      · exact (hfree.not_retains hfrom target htarget hkept).elim
    refine ⟨halters.keeps.trans (hspares.settled.keeps.mono hreplaced fun _ => False.elim),
      fun l number hl hentry => ?_, hspares.settled.sound⟩
    refine halters.files l number hl ?_
    rw [← hspares.settled.keeps.entry l (fun hreplaced' => ?_) nofun]
    · exact hentry
    · obtain ⟨target, htarget, heq⟩ := hreplaced l hreplaced'
      exact hl target htarget heq

/-- The temporary path of the second run is free after the first one. -/
theorem Alters.free {first second : Target} {run₁ run₂ : Nat}
    (halters : task.Alters [first] w.tree u.tree) (hrefuses : u.refuses = w.refuses)
    (hfree : task.Free w [(run₁, first), (run₂, second)]) :
    task.Free u ([second].map (run₂, ·)) := by
  refine ⟨halters.sound, List.forall_mem_singleton.mpr fun number hentry => ?_,
    List.pairwise_singleton .., List.forall_mem_singleton.mpr fun hkept => ?_⟩
  · rw [halters.keeps.spot_eq] at hentry
    refine hfree.free (run₂, second) (by simp) number (halters.files _ number ?_ hentry)
    have hlater := List.rel_of_pairwise_cons hfree.later (List.mem_singleton_self (run₂, second))
    exact List.forall_mem_singleton.mpr hlater.symm
  · exact hfree.removed (run₂, second) (by simp) ((World.retains_congr hrefuses).mp hkept)

/-- What is read is no output, so it is read again. -/
theorem Alters.rereads (h : task.Alters targets w.tree u.tree) (hsteady : w.Steady)
    (hrefuses : u.refuses = w.refuses) {paths : List String}
    (hunread : ∀ path ∈ paths, ∀ target ∈ targets,
      w.tree.spot path ≠ w.tree.spot (task.output target)) : Rereads paths w u := by
  intro path hpath content hreads
  refine ⟨?_, ?_, FileTree.read_of_keeps h.keeps hreads.content ?_⟩
  · exact (World.grants_congr hrefuses).mpr (hsteady.grants_iff.mpr hreads.size)
  · exact (World.grants_congr hrefuses).mpr (hsteady.grants_iff.mpr hreads.read)
  · rintro ⟨target, htarget, heq⟩
    exact hunread path hpath target htarget heq

/-- The log file has its names after a run that has started. -/
theorem Alters.entry_of_log {number? : Option Nat} {opened : FileTree}
    (halters : task.Alters targets opened tree)
    (hunlogged : ∀ target, opened.Misses number? (task.output target)) :
    ∀ number ∈ number?, ∀ l, opened.entry? l = some (.file number) →
      tree.entry? l = some (.file number) := by
  intro number hnumber l hentry
  refine (halters.keeps.entry l ?_ fun _ => hentry ▸ nofun).trans hentry
  rintro ⟨target, -, rfl⟩
  exact hunlogged target number hnumber hentry

/-- The same is read where the files are the same and the same is refused. -/
theorem rereads_of_eq {paths : List String} (htree : v.tree = w.tree)
    (hrefuses : v.refuses = w.refuses) : Rereads paths w v := by
  intro path _ content hreads
  refine ⟨?_, ?_, htree ▸ hreads.content⟩
  · rw [htree]
    exact (World.grants_congr hrefuses).mpr hreads.size
  · rw [htree]
    exact (World.grants_congr hrefuses).mpr hreads.read

/-- A target is written in runs of two numbers or in neither: what the system and the directories say to
the temporary files of the two is the same. -/
def WritesAlike (task : Task) (w : World) (run run' : Nat) (target : Target) : Prop :=
  let made := (w.makingFirst w.tree (Path.ancestors task.outDir)).2
  ∀ content,
    w.LetsReplace (temporaryPath (task.output target) run') (task.output target) content ∧
        made.Fits (temporaryPath (task.output target) run') ↔
      w.LetsReplace (temporaryPath (task.output target) run) (task.output target) content ∧
        made.Fits (temporaryPath (task.output target) run)

theorem WritesAlike.writable_iff {run run' : Nat} {target : Target} {made : FileTree}
    {r : Except Failure Unit} (h : task.WritesAlike w run run' target)
    (hrefuses : v.refuses = w.refuses)
    (hfrom : Job.From u task.settings task.source task.outDir? job)
    (hmaking : w.makingFirst w.tree (Path.ancestors task.outDir) = (r, made)) :
    job.Writable v run' made target ↔ job.Writable w run made target := by
  rw [WritesAlike, hmaking] at h
  rw [Job.writable_congr hrefuses]
  unfold Job.Writable Job.temporary
  rw [path_eq hfrom]
  refine exists_congr fun script => and_congr_right fun _ => ?_
  rw [← and_assoc, h script.toUTF8, and_assoc]

/-- What becomes of the facility can be reported in a run that compiles both targets. -/
def Reports (task : Task) (w : World) : Prop :=
  ∀ job made outcome tree, Job.From w task.settings task.source task.outDir? job →
    w.makingFirst w.tree (Path.ancestors task.outDir) = (.ok (), made) →
      job.Becomes w .facility made outcome tree → w.Grants tree (job.announcement .facility outcome)

/-- No output is a file that is read, or the log file. -/
structure Distinct (task : Task) (w : World) (number? : Option Nat) : Prop where
  unread : ∀ path ∈ task.inputs w, ∀ target, w.tree.spot path ≠ w.tree.spot (task.output target)
  unlogged : ∀ target, w.tree.Misses number? (task.output target)

/-- What is written on the way to the scripts is nothing else that matters. The log file is not read; no
directory comes to be where a missing settings file was looked for; temporary files disturb nothing and
can be used in all runs or in none; and a report cannot end the run that compiles both targets before
its second one has its turn. -/
structure Separate (task : Task) (w : World) (first second : Target) (run₁ run₂ : Nat)
    (number? : Option Nat) : Prop where
  log : ∀ path ∈ task.inputs w, w.tree.Misses number? path
  directories : w.tree.read (task.invocation.settingsPath w) = .error .notFound →
    ∀ directory ∈ Path.ancestors task.outDir,
      w.tree.spot (task.invocation.settingsPath w) ≠ w.tree.spot directory
  together : task.Free w (Target.all.map (w.runNumber, ·))
  alone : task.Free w [(run₁, first), (run₂, second)]
  firstAlike : task.WritesAlike w w.runNumber run₁ first
  secondAlike : task.WritesAlike w w.runNumber run₂ second
  reports : task.Reports w

/-- **One run after the other** comes to what one run for both targets comes to. -/
theorem ends_commute {first second : Target} {both last : FileTree} {success₁ success₂ : Prop}
    {number? : Option Nat} (hne : first ≠ second) (hnamed : task.settings.output.Named)
    (hsteady : w.Steady) (hv : v.tree = w.tree) (hvrefuses : v.refuses = w.refuses)
    (hurefuses : u.refuses = w.refuses) (hdistinct : task.Distinct w number?)
    (hseparate : task.Separate w first second v.runNumber u.runNumber number?)
    (h : Ends w task.settings task.source task.outDir? Target.all success both)
    (h₁ : Ends v task.settings task.source task.outDir? [first] success₁ u.tree)
    (h₂ : Ends u task.settings task.source task.outDir? [second] success₂ last) :
    (success ↔ success₁ ∧ success₂) ∧ SameFiles (fun _ => False) both last := by
  have hfree₁ : task.Free w ([first].map (v.runNumber, ·)) := hseparate.alone.sublist (by simp)
  have hfree₁' : task.Free v ([first].map (v.runNumber, ·)) := hfree₁.of_eq hv hvrefuses
  have halters : task.Alters [first] w.tree u.tree :=
    hv ▸ alters_of_ends hnamed (List.nodup_singleton _) hfree₁' h₁
  have hfree₂ := halters.free hurefuses hseparate.alone
  have hfails : ¬success → ¬success₁ → (success ↔ success₁ ∧ success₂) := fun h h₁ =>
    ⟨fun h' => (h h').elim, fun h' => (h₁ h'.1).elim⟩
  by_cases hread : ∃ job, Job.From w task.settings task.source task.outDir? job
  · obtain ⟨job, hfrom⟩ := hread
    have hfrom₁ : Job.From v task.settings task.source task.outDir? job :=
      from_of_rereads (rereads_of_eq hv hvrefuses) hfrom
    have hfrom₂ : Job.From u task.settings task.source task.outDir? job :=
      from_of_rereads (halters.rereads hsteady hurefuses fun path hpath =>
        List.forall_mem_singleton.mpr (hdistinct.unread path (List.mem_cons_of_mem _ hpath) first))
        hfrom
    have houtDir : job.outDir = task.outDir := hfrom.placed
    cases hmaking : w.makingFirst w.tree (Path.ancestors job.outDir) with
    | mk r made =>
      have hmaking₁ : v.makingFirst v.tree (Path.ancestors job.outDir) = (r, made) := by
        rw [World.makingFirst_congr hvrefuses, hv, hmaking]
      cases r with
      | error failure =>
        obtain ⟨hfailure, rfl⟩ := h.of_unmade hfrom hmaking
        obtain ⟨hfailure₁, hu⟩ := h₁.of_unmade hfrom₁ hmaking₁
        obtain ⟨r, hmaking₂, hr⟩ :=
          World.makingFirst_again hsteady (FileTree.ancestors_leadThrough _) hmaking
        rw [← hu, ← World.makingFirst_congr hurefuses] at hmaking₂
        cases r with
        | ok => cases hr.mp rfl
        | error failure' =>
          obtain ⟨-, rfl⟩ := h₂.of_unmade hfrom₂ hmaking₂
          rw [hu]
          exact ⟨hfails hfailure hfailure₁, .refl _⟩
      | ok =>
        obtain ⟨hruns, hmakes⟩ := h.of_made hfrom hmaking
        obtain ⟨hruns₁, -⟩ := h₁.of_made hfrom₁ hmaking₁
        have hnamed' : job.settings.output.Named := hfrom.inForce ▸ hnamed
        obtain ⟨hfills, hsuccess⟩ := fills_of_runs_pair hsteady hnamed'
          ((hseparate.together.clear (by decide) hfrom).makes hmakes)
          (hseparate.together.not_retains hfrom)
          (fun outcome between => hseparate.reports job made outcome between hfrom (houtDir ▸ hmaking))
          hruns
        obtain ⟨hfills₁, hsuccess₁⟩ := fills_of_runs_singleton (hsteady.of_refuses_eq hvrefuses)
          ((hfree₁.clear (List.nodup_singleton _) hfrom).makes hmakes)
          (hfree₁'.not_retains hfrom first (List.mem_singleton_self _)) hruns₁
        have hsame := hfills₁.settled.directories
        have hmaking₂ : u.makingFirst u.tree (Path.ancestors job.outDir) = (.ok (), u.tree) := by
          rw [World.makingFirst_congr hurefuses]
          exact World.makingFirst_of_sameDirectories hsteady hmaking hsame
        obtain ⟨hruns₂, -⟩ := h₂.of_made hfrom₂ hmaking₂
        obtain ⟨hfills₂, hsuccess₂⟩ := fills_of_runs_singleton (hsteady.of_refuses_eq hurefuses)
          (hfree₂.clear (List.nodup_singleton _) hfrom)
          (hfree₂.not_retains hfrom second (List.mem_singleton_self _)) hruns₂
        rw [houtDir] at hmaking
        have hwritable₁ := hseparate.firstAlike.writable_iff hvrefuses hfrom hmaking
        have hwritable₂ := hseparate.secondAlike.writable_iff hurefuses hfrom hmaking
        refine ⟨?_, hfills.sameFiles (hfills₁.together hnamed' hne hwritable₁ hwritable₂ hfills₂)⟩
        rw [hsuccess, hsuccess₁, hsuccess₂, Job.writable_iff hsame, hwritable₁, hwritable₂,
          Job.announces_congr hsteady hvrefuses, Job.announces_congr hsteady hurefuses]
        have hall : ∀ {P : Target → Prop}, (∀ target ∈ Target.all, P target) ↔ P first ∧ P second := by
          intro P
          simp only [← Target.mem_pair_iff hne]
          rw [List.forall_mem_cons, List.forall_mem_singleton]
        exact hall
  · have hnone := not_exists.mp hread
    obtain ⟨hfailure, rfl⟩ := h.of_unread hnone
    obtain ⟨hfailure₁, hu⟩ := h₁.of_unread fun job hfrom =>
      hnone job (from_of_rereads (rereads_of_eq hv.symm hvrefuses.symm) hfrom)
    have hsame : u.tree = w.tree := hu.trans hv
    obtain ⟨-, rfl⟩ := h₂.of_unread fun job hfrom =>
      hnone job (from_of_rereads (rereads_of_eq hsame.symm hurefuses.symm) hfrom)
    rw [hsame]
    exact ⟨hfails hfailure hfailure₁, .refl _⟩

end Task

end Ends

namespace Task

/-! ## Both targets together, and one after the other -/

/-- The same task is set for both targets together, for one of them, and for the other. -/
structure Parts [Libraries] (task : Task) (w : World) (first second : Target)
    (arguments firstArguments secondArguments : List String) : Prop where
  different : first ≠ second
  together : Libraries.arguments arguments = .ok (task.only Target.all).compiling
  first : Libraries.arguments firstArguments = .ok (task.only [first]).compiling
  second : Libraries.arguments secondArguments = .ok (task.only [second]).compiling
  settings : ∀ settings, task.invocation.Loads w settings → settings = task.settings

/-- The world of another run: the environment is the same, and the system refuses the same. -/
structure Another (w v : World) : Prop where
  environment : v.environment = w.environment
  refuses : v.refuses = w.refuses

section Commuting

variable [Libraries] {task : Task} {w v u : World} {first second : Target}
  {handle? : Option World.Handle} {opened tree : FileTree} {targets : List Target}

/-- The settings file is as it was after a run. -/
theorem settingsRead_again {run₁ run₂ : Nat} {between : FileTree} (hsteady : w.Steady)
    (hsound : w.tree.Sound) (hanother : Another w u)
    (hstarts : task.invocation.Starts w task.settings handle? opened)
    (hdistinct : task.Distinct (w.withTree opened) (number? handle?))
    (hseparate : task.Separate (w.withTree opened) first second run₁ run₂ (number? handle?))
    (halters : task.Alters targets opened between)
    (htwin : FileTree.Twin (number? handle?) opened u.tree between) :
    u.reading (task.invocation.settingsPath w) = w.reading (task.invocation.settingsPath w) := by
  have hmem : task.invocation.settingsPath w ∈ task.inputs w := List.mem_cons_self
  have hmisses := hseparate.log _ hmem
  have hkeeps := (hstarts.opens.keeps hsound).1
  have hread : (∃ content, w.reading (task.invocation.settingsPath w) = .ok content) ∨
      task.invocation.settingsPath w = Settings.defaultFileName ∧
        w.reading (task.invocation.settingsPath w) = .error .notFound :=
    (loads_cases hstarts.loads).imp (fun ⟨content, h, _⟩ => ⟨content, h⟩) fun h => ⟨h.1, h.2.1⟩
  have hopened : (w.withTree opened).reading (task.invocation.settingsPath w) =
      w.reading (task.invocation.settingsPath w) := by
    refine settingsRead_of_keeps (v := w.withTree opened) hsteady rfl hkeeps hread ?_ fun _ => nofun
    rintro ⟨number, hnumber, hentry⟩
    exact hmisses number hnumber (hkeeps.spot_eq _ ▸ hentry)
  calc
    u.reading (task.invocation.settingsPath w)
        = (u.withTree between).reading (task.invocation.settingsPath w) :=
      reading_congr (hsteady.of_refuses_eq hanother.refuses) rfl fun _ =>
        (htwin.agree.read_eq (htwin.misses hmisses)).symm
    _ = (w.withTree opened).reading (task.invocation.settingsPath w) := by
      refine settingsRead_of_keeps (w := w.withTree opened) (v := u.withTree between)
        (hsteady.of_refuses_eq rfl) hanother.refuses halters.keeps (hopened ▸ hread) ?_
        fun hmissing => ?_
      · rintro ⟨target, -, heq⟩
        exact hdistinct.unread _ hmem target heq
      · rintro ⟨directory, hdirectory, heq⟩
        exact hseparate.directories hmissing directory hdirectory heq
    _ = w.reading (task.invocation.settingsPath w) := hopened

/-- **Runs that start commute.** The log file apart, the same files are left. -/
theorem started_commute {result result₁ result₂ : Except String Verdict × World}
    (hne : first ≠ second) (hsteady : w.Steady) (hsound : w.tree.Sound) (hv : v.tree = w.tree)
    (hanother : Another w v) (hu : u.tree = result₁.2.tree) (hanother' : Another w u)
    (hstarts : task.invocation.Starts w task.settings handle? opened)
    (hdistinct : task.Distinct (w.withTree opened) (number? handle?))
    (hseparate : task.Separate (w.withTree opened) first second v.runNumber u.runNumber
      (number? handle?))
    (h : task.Fares Target.all w result) (h₁ : task.Fares [first] v result₁)
    (h₂ : task.Fares [second] u result₂) :
    (result.1 = .ok .success ↔ result₁.1 = .ok .success ∧ result₂.1 = .ok .success) ∧
      SameFiles (fun l => ∃ number ∈ number? handle?, opened.entry? l = some (.file number))
        result.2.tree result₂.2.tree := by
  have hnamed := named_of_loads hstarts.loads
  have hreads : ∀ path ∈ task.source.paths ++ task.settings.templates.paths,
      opened.Misses (number? handle?) path := fun path hpath =>
    hseparate.log path (List.mem_cons_of_mem _ hpath)
  have hself := hstarts.opens.twin hsound
  -- both targets together
  obtain ⟨both, hends, htwin⟩ := h.started _ _ hstarts opened opened hself hreads
    fun target htarget => hseparate.together.misses (List.mem_map.mpr ⟨target, htarget, rfl⟩)
  -- one of them
  have hstarts₁ : task.invocation.Starts v task.settings handle? opened := by
    refine hstarts.again hanother.environment
      (reading_congr hsteady hanother.refuses fun _ => by rw [hv]) ?_
    exact hstarts.opens.of_eq hv hanother.refuses
  have hfree₁ : task.Free (w.withTree opened) ([first].map (v.runNumber, ·)) :=
    hseparate.alone.sublist (by simp)
  obtain ⟨between, hends₁, htwin₁⟩ := h₁.started _ _ hstarts₁ opened opened hself hreads
    (List.forall_mem_singleton.mpr (hfree₁.misses (List.mem_singleton_self _)))
  have halters : task.Alters [first] opened between :=
    alters_of_ends (w := v.withTree opened) hnamed (List.nodup_singleton _)
      (hfree₁.of_eq rfl hanother.refuses) hends₁
  -- and then the other
  have hopens : Opens u (task.invocation.logFile?.or task.settings.log.file?) handle? u.tree := by
    refine hstarts.opens.again hsteady hanother'.refuses hsound (hu ▸ htwin₁.workingDirectory)
      (fun l hl => ?_) fun number hnumber l hentry => ?_
    · rw [hu, ← htwin₁.agree.sameDirectories.directory]
      exact halters.keeps.directory l hl
    · rw [hu, ← htwin₁.agree.entry_eq]
      exact halters.entry_of_log hdistinct.unlogged number hnumber l hentry
  have hstarts₂ : task.invocation.Starts u task.settings handle? u.tree :=
    hstarts.again hanother'.environment (settingsRead_again hsteady hsound hanother' hstarts hdistinct
      hseparate halters (hu ▸ htwin₁)) hopens
  obtain ⟨last, hends₂, htwin₂⟩ := h₂.started _ _ hstarts₂ opened between (hu ▸ htwin₁) hreads
    (List.forall_mem_singleton.mpr (hseparate.alone.misses (by simp)))
  obtain ⟨hsuccess, hsame⟩ := ends_commute (w := w.withTree opened) (v := v.withTree opened)
    (u := u.withTree between) hne hnamed (hsteady.of_refuses_eq rfl) rfl hanother.refuses
    hanother'.refuses hdistinct hseparate hends hends₁ hends₂
  have haltersBoth : task.Alters Target.all opened both :=
    alters_of_ends (w := w.withTree opened) hnamed (by decide) hseparate.together hends
  have haltersLast : task.Alters [second] between last :=
    alters_of_ends (w := u.withTree between) hnamed (List.nodup_singleton _)
      (halters.free (w := w.withTree opened) (u := u.withTree between) hanother'.refuses
        hseparate.alone) hends₂
  refine ⟨hsuccess, (htwin.agree.sameDirectories.trans hsame.directories).trans
    htwin₂.agree.sameDirectories.symm, fun l hl content => ?_, ?_⟩
  · have hother : ∀ number ∈ number? handle?, result.2.tree.entry? l ≠ some (.file number) :=
      fun number hnumber hentry => hl ⟨number, hnumber, htwin.names number hnumber l hentry⟩
    have hother₂ : ∀ number ∈ number? handle?, result₂.2.tree.entry? l ≠ some (.file number) :=
      fun number hnumber hentry => hl ⟨number, hnumber, htwin₂.names number hnumber l hentry⟩
    rw [← htwin₂.agree.hasFile_iff hother₂, hsame.files l not_false, htwin.agree.hasFile_iff hother]
  · rintro l ⟨number, hnumber, hentry⟩
    have hbetween := halters.entry_of_log hdistinct.unlogged number hnumber l hentry
    have hboth := haltersBoth.entry_of_log hdistinct.unlogged number hnumber l hentry
    have hlast := haltersLast.entry_of_log (fun target => htwin₁.agree.misses
      (htwin₁.misses (hdistinct.unlogged target))) number hnumber l hbetween
    rw [htwin.agree.entry_eq] at hboth
    rw [htwin₂.agree.entry_eq] at hlast
    exact ⟨fun hno => hno number hboth, fun hno => hno number hlast⟩

theorem execute_fares {arguments : List String} (hsteady : w.Steady)
    (hlogged : task.invocation.Logged w)
    (harguments : Libraries.arguments arguments = .ok (task.only targets).compiling) :
    ∃ result, task.Fares targets w result ∧
      (((execute arguments : Step Nat) w).1 = 0 ↔ result.1 = .ok .success) ∧
        ((execute arguments : Step Nat) w).2.tree = result.2.tree := by
  obtain ⟨code, after, hexecute, hcode, hafter, -⟩ := execute_eq (w := w) harguments rfl
  rw [hexecute]
  exact ⟨_, fares_run hsteady hlogged, hcode, hafter.tree⟩

end Commuting

/-- Compiles a small program for the targets that a word selects, with further options, in a run of the
given number. -/
def compileSmall (options : List String) (word : String) (run : Nat) (w : World) : Nat × World :=
  (execute (["compile", "--text", "RULES \x7b m() := f() \x7d", "--target", word] ++ options) :
    Step Nat) { w with runNumber := run }

theorem compileSmall_nil (word : String) (run : Nat) (w : World) : compileSmall [] word run w =
    (execute ["compile", "--text", "RULES \x7b m() := f() \x7d", "--target", word] : Step Nat)
      { w with runNumber := run } :=
  rfl

theorem fits_of_isOk {tree : FileTree} {path : String} (hslash : Path.endsWithSlash path = false)
    (h : (tree.draft path .empty).isOk = true) : tree.Fits path :=
  (FileTree.exists_draft_iff hslash).mp (exists_of_isOk h)

/-- The task of writing both scripts of that program. -/
def small : Task :=
  plain (.text "RULES \x7b m() := f() \x7d") none Target.all

theorem obliging_unwritten : unwritten.Obliging := fun _ _ => rfl

theorem sound_unwritten : unwritten.tree.Sound := fun l number hl =>
  (noFile_unwritten l number hl).elim

theorem distinct_unwritten : small.Distinct unwritten none := by
  refine ⟨fun path hpath target => ?_, fun _ _ => nofun⟩
  revert path
  cases target <;> decide +kernel

theorem separate_unwritten : small.Separate unwritten .imitation .facility 1 2 none := by
  have hfree : ∀ {writes}, writes.Pairwise (fun write later : Nat × Target =>
      unwritten.tree.spot (small.output write.2) ≠
        unwritten.tree.spot (temporaryPath (small.output later.2) later.1)) →
          small.Free unwritten writes := fun hlater =>
    ⟨sound_unwritten, fun _ _ => noFile_unwritten _, hlater,
      fun _ _ => obliging_unwritten.not_retains _⟩
  have halike : ∀ {run target}, Path.endsWithSlash (temporaryPath (small.output target) run) = false →
      ((unwritten.makingFirst unwritten.tree (Path.ancestors small.outDir)).2.draft
        (temporaryPath (small.output target) run) .empty).isOk = true → ∀ content,
      unwritten.LetsReplace (temporaryPath (small.output target) run) (small.output target) content ∧
        (unwritten.makingFirst unwritten.tree (Path.ancestors small.outDir)).2.Fits
          (temporaryPath (small.output target) run) := fun hslash hisOk content =>
    ⟨obliging_unwritten.letsReplace _ _ _, fits_of_isOk hslash hisOk⟩
  refine ⟨fun _ _ _ => nofun, by decide +kernel, hfree (by decide +kernel), hfree (by decide +kernel),
    fun content => iff_of_true (halike ?_ ?_ content) (halike ?_ ?_ content),
    fun content => iff_of_true (halike ?_ ?_ content) (halike ?_ ?_ content),
    fun _ _ _ _ _ _ _ => rfl⟩
  all_goals decide +kernel

theorem parts_small : small.Parts unwritten .imitation .facility
    ["compile", "--text", "RULES \x7b m() := f() \x7d", "--target", "all"]
    ["compile", "--text", "RULES \x7b m() := f() \x7d", "--target", "imitation"]
    ["compile", "--text", "RULES \x7b m() := f() \x7d", "--target", "facility"] := by
  have hloads : small.invocation.Loads unwritten small.settings := loads_of_missing rfl rfl rfl
  exact ⟨nofun, by decide +kernel, by decide +kernel, by decide +kernel,
    fun settings h => Except.ok.inj (h.symm.trans hloads)⟩

/-- A world in which the command line logs all that it does. -/
def loggingWorld : World :=
  { programWorld "" with environment := [(Log.environmentName, "causal_compiler=debug")] }

/-- A directory under the path of a temporary file of the run with number one. -/
def blockedWorld : World where
  tree := ⟨[(["work"], .directory), (["work", "output"], .directory),
    (["work", "output", ".facility_domain.py.1.tmp"], .directory)], [], ["work"]⟩

/-- A world in which nothing was written, with room for a single file. -/
def crampedWorld : World :=
  { unwritten with refuses := fun tree operation => match operation with
      | .create _ =>
        if tree.contents.isEmpty then none
        else some ⟨.other "No space left on device (os error 28)", 0⟩
      | _ => none }

/-- Both scripts are written where they can share a path, each in a run of its own, the imitation script
first. -/
theorem exists_replaces_sharing_apart (facility imitation : ByteArray) :
    ∃ made between tree : FileTree,
      sharingWorld.makingFirst sharingWorld.tree ["output"] = (.ok (), made) ∧
      made.Replaces "output/.imitation.py.0.tmp" "output/imitation.py" imitation between ∧
      between.read "template" = .ok sharedTemplate.toUTF8 ∧
      between.read Settings.defaultFileName = .ok sharedSettings.toUTF8 ∧
      between.isDirectory "output" = true ∧
      between.Replaces "output/..imitation.py.0.tmp.0.tmp" "output/.imitation.py.0.tmp" facility
        tree ∧
      tree.entry? ["work", "output", ".imitation.py.0.tmp"] ≠ none :=
  ⟨_, _, _, rfl, ⟨_, rfl, rfl⟩, rfl, rfl, rfl, ⟨_, rfl, rfl⟩, nofun⟩

/-- The facility script stays if it is written last, and is gone otherwise. -/
theorem compileSmall_sharing :
    (compileSmall [] "all" 0 sharingWorld).2.tree.entry?
        ["work", "output", ".imitation.py.0.tmp"] = none ∧
      (compileSmall [] "facility" 0 (compileSmall [] "imitation" 0 sharingWorld).2).2.tree.entry?
        ["work", "output", ".imitation.py.0.tmp"] ≠ none := by
  have hfirstRun : { sharingWorld with runNumber := 0 } = sharingWorld := rfl
  simp only [compileSmall_nil, hfirstRun]
  constructor
  · obtain ⟨after, hexecute, -, -, hleft⟩ := @execute_sharing_all
      ["compile", "--text", "RULES \x7b m() := f() \x7d", "--target", "all"] (by decide +kernel)
    rw [hexecute]
    exact hleft.gone
  · obtain ⟨program, facility, imitation, hscripts⟩ := exists_scripts_sharing
    obtain ⟨made, between, tree, hmade, hfirst, htemplate, hread, hthere, hsecond, hsome⟩ :=
      exists_replaces_sharing_apart facility.toUTF8 imitation.toUTF8
    obtain ⟨hpath, htemporary, hpath', htemporary'⟩ := paths_sharing program
    have hobliging := obliging_sharingWorld
    have hcompiles : Compiles sharingWorld sharing.settings sharing.source none [.imitation]
        between :=
      ⟨sharingJob program, made, from_sharing (hobliging.reads rfl) hscripts.read,
        (congrArg _ ancestors_output).trans hmade, between,
        ⟨imitation, hscripts.imitation, (hobliging.letsReplace _ _ _).replacing_eq_ok_iff.mpr
          (htemporary' ▸ hpath' ▸ hfirst), rfl⟩, rfl⟩
    have harguments : Libraries.arguments
        ["compile", "--text", "RULES \x7b m() := f() \x7d", "--target", "imitation"] =
          .ok { sharing with targets := [.imitation] }.compiling := by decide +kernel
    obtain ⟨after, hexecute, hafter⟩ := execute_sharing harguments hobliging rfl rfl hcompiles
    obtain rfl : after.tree = between := hafter.tree
    let later : World := { after with runNumber := 0 }
    have hobliging' : later.Obliging := fun tree operation => hafter.obliging hobliging tree operation
    have hcompiles' : Compiles later sharing.settings sharing.source none [.facility] tree := by
      refine ⟨sharingJob program, later.tree, from_sharing (hobliging'.reads htemplate) hscripts.read,
        ?_, tree, ⟨facility, hscripts.facility, (hobliging'.letsReplace _ _ _).replacing_eq_ok_iff.mpr
          (htemporary ▸ hpath ▸ hsecond), hobliging' _ _⟩, rfl⟩
      exact (congrArg _ ancestors_output).trans (World.makingFirst_of_isDirectory hobliging' hthere)
    have harguments' : Libraries.arguments
        ["compile", "--text", "RULES \x7b m() := f() \x7d", "--target", "facility"] =
          .ok { sharing with targets := [.facility] }.compiling := by decide +kernel
    obtain ⟨last, hexecute', hlast⟩ := execute_sharing (w := later) harguments' hobliging'
      hafter.environment hread hcompiles'
    rw [hexecute, hexecute', hlast.tree]
    exact hsome

end Task

end CommandLine

end CausalRules
