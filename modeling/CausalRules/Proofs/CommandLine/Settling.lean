import CausalRules.Proofs.CommandLine.Agreement

/-!
# Compiling is all or nothing for each target

Whatever comes of a run that compiles, each target's file either holds the whole script afterwards or is
as it was, and nothing else is left but directories and what the system does not let be removed.

- `Job.Clear`: nothing that matters stands where temporary files are written.
- `Job.Settles`: what becomes of a target's file; `settles_of_becomes` for one target.
- `Job.Spares`: what becomes of the files of targets, and of all others; `spares_of_runs` for a run that
  goes through targets.
- `Task.compile_ends`: whole runs. `Task.compile_changes_more` shows what can come of them otherwise.
-/

namespace CausalRules

/-- The system may keep a file from being removed. -/
def World.Retains (w : World) (path : String) : Prop :=
  ∃ tree, ¬w.Grants tree (.remove path)

theorem World.Obliging.not_retains {w : World} (h : w.Obliging) (path : String) : ¬w.Retains path := by
  rintro ⟨tree, hrefused⟩
  exact hrefused (h _ _)

namespace CommandLine

open World (Step)
open FileTree (Keeps Settled)

/-! ## One target -/

/-- The file of a target was replaced by the script, and nothing else was changed; or the target failed,
and nothing was changed, but that the temporary file may be left that could not be removed. -/
structure Job.Settles (job : Job) (w : World) (target : Target) (tree : FileTree)
    (outcome : Except String Unit) (tree' : FileTree) : Prop where
  settled : Settled (fun l => outcome = .ok () ∧ l = tree.spot (job.path target) ∨
    outcome ≠ .ok () ∧ ¬w.Grants tree' (.remove (job.temporary w.runNumber target)) ∧
      l = tree.spot (job.temporary w.runNumber target)) tree tree'
  script : outcome = .ok () → ∃ script, job.program.script job.templates target = .ok script ∧
    tree'.HasFile (tree.spot (job.path target)) script.toUTF8

/-- No file stands at a temporary path, and none comes there before it is used. No target comes twice. -/
structure Job.Clear (job : Job) (number : Nat) (targets : List Target) (tree : FileTree) :
    Prop where
  sound : tree.Sound
  nodup : targets.Nodup
  free : ∀ target ∈ targets, tree.NoFile (tree.spot (job.temporary number target))
  later : targets.Pairwise fun target later =>
    tree.spot (job.path target) ≠ tree.spot (job.temporary number later)

/-- The files of targets hold the scripts or are as before, and nothing else was changed, but for
temporary files that the system keeps. -/
structure Job.Spares (job : Job) (w : World) (targets : List Target) (tree tree' : FileTree)
    (success : Prop) : Prop where
  settled : Settled (fun l => ∃ target ∈ targets, l = tree.spot (job.path target) ∨
    w.Retains (job.temporary w.runNumber target) ∧
      l = tree.spot (job.temporary w.runNumber target)) tree tree'
  whole : ∀ target ∈ targets,
    (∃ script, job.program.script job.templates target = .ok script ∧
      tree'.HasFile (tree.spot (job.path target)) script.toUTF8) ∨
    ((∀ other ∈ targets, other ≠ target → w.Retains (job.temporary w.runNumber other) →
      tree.spot (job.path target) ≠ tree.spot (job.temporary w.runNumber other)) →
        ∀ content, tree'.HasFile (tree.spot (job.path target)) content ↔
          tree.HasFile (tree.spot (job.path target)) content)
  complete : success → ∀ target ∈ targets, ∃ script,
    job.program.script job.templates target = .ok script ∧
      tree'.HasFile (tree.spot (job.path target)) script.toUTF8

section Targets

variable {w : World} {job : Job} {target : Target} {targets : List Target} {number : Nat}
  {tree tree' between : FileTree} {outcome : Except String Unit} {success rest : Prop}

/-- **A target is written as a whole or not at all**, where no file has its temporary path. -/
theorem settles_of_becomes (hsound : tree.Sound)
    (hfree : tree.NoFile (tree.spot (job.temporary w.runNumber target)))
    (h : job.Becomes w target tree outcome tree') : job.Settles w target tree outcome tree' := by
  have hslash := endsWithSlash_temporaryPath (job.path target) w.runNumber
  cases h with
  | unmade => exact ⟨.refl hsound, nofun⟩
  | written hscript hreplacing =>
    obtain ⟨hfile, hsettled⟩ := FileTree.replaces_fresh_spec hsound hfree hslash
      (World.replaces_of_replacing hreplacing)
    exact ⟨hsettled.mono fun l hl => .inl ⟨rfl, hl⟩, fun _ => ⟨_, Job.script_eq_ok.mp hscript, hfile⟩⟩
  | unwritten _ _ hleaves =>
    exact ⟨(World.settled_of_leaves hsound hfree hslash hleaves).mono fun l hl => .inr ⟨nofun, hl⟩,
      nofun⟩

/-- What a target that becomes something can have changed. -/
theorem Job.Settles.replaced (h : job.Settles w target tree outcome tree') :
    Settled (fun l => l = tree.spot (job.path target) ∨
      w.Retains (job.temporary w.runNumber target) ∧
        l = tree.spot (job.temporary w.runNumber target)) tree tree' := by
  refine h.settled.mono fun l hl => ?_
  rcases hl with ⟨-, hl⟩ | ⟨-, hkept, hl⟩
  · exact .inl hl
  · exact .inr ⟨⟨tree', hkept⟩, hl⟩

/-- The temporary paths of later targets are still free after one target had its turn. -/
theorem Job.Clear.tail (hnamed : job.settings.output.Named)
    (h : job.Clear w.runNumber (target :: targets) tree)
    (hsettles : job.Settles w target tree outcome between) : job.Clear w.runNumber targets between := by
  obtain ⟨hfirst, hlater⟩ := List.pairwise_cons.mp h.later
  obtain ⟨hnew, hnodup⟩ := List.nodup_cons.mp h.nodup
  have hspot := hsettles.settled.directories.spot_eq
  refine ⟨hsettles.settled.sound, hnodup, fun other hother => ?_, ?_⟩
  · rw [hspot]
    refine hsettles.replaced.noFile ?_ (h.free other (List.mem_cons_of_mem _ hother))
    rintro (heq | ⟨-, heq⟩)
    · exact hfirst other hother heq.symm
    · refine (spot_temporary_ne hnamed w.runNumber).1 ?_ heq.symm
      rintro rfl
      exact hnew hother
  · simpa only [hspot] using hlater

theorem Job.Spares.nil (hsound : tree.Sound) : job.Spares w [] tree tree success :=
  ⟨.refl hsound, nofun, fun _ => nofun⟩

/-- The run stops after a target. -/
theorem Job.Spares.stopped (hnamed : job.settings.output.Named)
    (hnew : target ∉ targets) (h : job.Settles w target tree outcome tree') (hfails : ¬success) :
    job.Spares w (target :: targets) tree tree' success := by
  refine ⟨h.replaced.mono fun l hl => ⟨target, List.mem_cons_self, hl⟩,
    List.forall_mem_cons.mpr ⟨?_, fun other hother => .inr fun hapart => ?_⟩,
    fun hsuccess => (hfails hsuccess).elim⟩
  · by_cases hok : outcome = .ok ()
    · exact .inl (h.script hok)
    · refine .inr fun _ content => h.settled.hasFile_iff ?_
      rintro (⟨hok', -⟩ | ⟨-, -, heq⟩)
      · exact hok hok'
      · exact (@spot_temporary_ne _ _ hnamed target target w.runNumber).2 heq
  · have hne : target ≠ other := fun heq => hnew (heq ▸ hother)
    intro content
    refine h.replaced.hasFile_iff ?_
    rintro (heq | ⟨hkept, heq⟩)
    · exact spot_path_ne hnamed hne heq.symm
    · exact hapart target List.mem_cons_self hne hkept heq

/-- One target and then the others. -/
theorem Job.Spares.next (hnamed : job.settings.output.Named)
    (hclear : job.Clear w.runNumber (target :: targets) tree)
    (h : job.Settles w target tree outcome between) (h' : job.Spares w targets between tree' rest)
    (hsuccess : success ↔ outcome = .ok () ∧ rest) :
    job.Spares w (target :: targets) tree tree' success := by
  obtain ⟨hfirst, -⟩ := List.pairwise_cons.mp hclear.later
  obtain ⟨hnew, -⟩ := List.nodup_cons.mp hclear.nodup
  have hspot := h.settled.directories.spot_eq
  obtain ⟨hsettled, hwhole, hcomplete⟩ := h'
  simp only [hspot] at hsettled hwhole hcomplete
  have hne : ∀ {other}, other ∈ targets → target ≠ other := fun hother heq => hnew (heq ▸ hother)
  -- the others leave the file of the first target alone
  have hkept : ∀ content, tree'.HasFile (tree.spot (job.path target)) content ↔
      between.HasFile (tree.spot (job.path target)) content := by
    refine fun content => hsettled.hasFile_iff ?_
    rintro ⟨other, hother, heq | ⟨-, heq⟩⟩
    · exact spot_path_ne hnamed (hne hother) heq
    · exact hfirst other hother heq
  have hscript : outcome = .ok () → ∃ script, job.program.script job.templates target = .ok script ∧
      tree'.HasFile (tree.spot (job.path target)) script.toUTF8 := by
    intro hok
    obtain ⟨script, hmade, hfile⟩ := h.script hok
    exact ⟨script, hmade, (hkept _).mpr hfile⟩
  refine ⟨(h.replaced.mono ?_).trans (hsettled.mono ?_), List.forall_mem_cons.mpr ⟨?_, ?_⟩,
    fun hall => List.forall_mem_cons.mpr ?_⟩
  · exact fun l hl => ⟨target, List.mem_cons_self, hl⟩
  · rintro l ⟨other, hother, hl⟩
    exact ⟨other, List.mem_cons_of_mem _ hother, hl⟩
  · by_cases hok : outcome = .ok ()
    · exact .inl (hscript hok)
    · refine .inr fun _ content => (hkept content).trans (h.settled.hasFile_iff ?_)
      rintro (⟨hok', -⟩ | ⟨-, -, heq⟩)
      · exact hok hok'
      · exact (@spot_temporary_ne _ _ hnamed target target w.runNumber).2 heq
  · refine fun other hother => (hwhole other hother).imp_right fun hsame hapart content => ?_
    rw [hsame fun another hanother => hapart another (List.mem_cons_of_mem _ hanother)]
    refine h.replaced.hasFile_iff ?_
    rintro (heq | ⟨hkept', heq⟩)
    · exact spot_path_ne hnamed (hne hother) heq.symm
    · exact hapart target List.mem_cons_self (hne hother) hkept' heq
  · obtain ⟨hok, hrest⟩ := hsuccess.mp hall
    exact ⟨hscript hok, hcomplete hrest⟩

/-- **Targets are written one by one**, each as a whole or not at all. -/
theorem spares_of_runs (hnamed : job.settings.output.Named)
    (hclear : job.Clear w.runNumber targets tree)
    (h : job.Runs w targets tree tree' success) : job.Spares w targets tree tree' success := by
  induction h with
  | done => exact .nil hclear.sound
  | stopped hbecomes _ hfails =>
    exact .stopped hnamed (List.nodup_cons.mp hclear.nodup).1
      (settles_of_becomes hclear.sound (hclear.free _ List.mem_cons_self) hbecomes) hfails
  | next hbecomes _ _ hsuccess ih =>
    have hsettles := settles_of_becomes hclear.sound (hclear.free _ List.mem_cons_self) hbecomes
    exact .next hnamed hclear hsettles (ih (hclear.tail hnamed hsettles)) hsuccess

theorem Job.Clear.makes {paths : List String} {made : FileTree}
    (h : job.Clear number targets tree) (hmakes : MakesAmong paths tree made) :
    job.Clear number targets made := by
  have hspot := hmakes.keeps.spot_eq
  refine ⟨(hmakes.ready (fun _ => False) ⟨h.sound, nofun⟩).sound, h.nodup,
    fun target htarget n hn => ?_, ?_⟩
  · rw [hspot] at hn
    exact h.free target htarget n (hmakes.file _ n hn)
  · simpa only [hspot] using h.later

end Targets

/-! ## A whole run -/

namespace Task

/-- Nothing that matters stands where temporary files are written: no file, and no script of an earlier
target. No target is asked for twice. -/
structure Clear (task : Task) (w : World) : Prop where
  sound : w.tree.Sound
  nodup : task.targets.Nodup
  free : ∀ target ∈ task.targets, w.tree.NoFile (w.tree.spot (task.temporary w target))
  later : task.targets.Pairwise fun target later =>
    w.tree.spot (task.output target) ≠ w.tree.spot (task.temporary w later)

/-- Scripts are written as a whole or not at all. Besides them and the directories above them, and
temporary files that the system keeps, nothing is changed. -/
structure AllOrNothing (task : Task) (w : World) (tree' : FileTree) (success : Prop) : Prop where
  keeps : Keeps
    (fun l => ∃ target ∈ task.targets, l = w.tree.spot (task.output target) ∨
      w.Retains (task.temporary w target) ∧ l = w.tree.spot (task.temporary w target))
    (fun l => ∃ path ∈ Path.ancestors task.outDir, l = w.tree.spot path) w.tree tree'
  whole : ∀ target ∈ task.targets,
    (∃ job script, Job.From w task.settings task.source task.outDir? job ∧
      job.program.script job.templates target = .ok script ∧
        tree'.HasFile (w.tree.spot (task.output target)) script.toUTF8) ∨
    ((∀ other ∈ task.targets, other ≠ target → w.Retains (task.temporary w other) →
      w.tree.spot (task.output target) ≠ w.tree.spot (task.temporary w other)) →
        ∀ content, tree'.HasFile (w.tree.spot (task.output target)) content ↔
          w.tree.HasFile (w.tree.spot (task.output target)) content)
  complete : success → ∀ target ∈ task.targets, ∃ job script,
    Job.From w task.settings task.source task.outDir? job ∧
      job.program.script job.templates target = .ok script ∧
        tree'.HasFile (w.tree.spot (task.output target)) script.toUTF8
  temporary : ∀ target ∈ task.targets, ¬w.Retains (task.temporary w target) →
    (∀ other ∈ task.targets,
      w.tree.spot (task.output other) ≠ w.tree.spot (task.temporary w target)) →
        tree'.NoFile (w.tree.spot (task.temporary w target))

section Ending

variable {task : Task} {w : World} {tree made : FileTree} {success : Prop}

theorem temporary_eq {job : Job} (hfrom : Job.From w task.settings task.source task.outDir? job)
    (target : Target) : job.temporary w.runNumber target = task.temporary w target := by
  rw [Job.temporary, path_eq hfrom, temporary]

theorem Clear.job (h : task.Clear w) {job : Job}
    (hfrom : Job.From w task.settings task.source task.outDir? job) :
    job.Clear w.runNumber task.targets w.tree := by
  refine ⟨h.sound, h.nodup, fun target htarget => ?_, ?_⟩
  · rw [temporary_eq hfrom]
    exact h.free target htarget
  · simpa only [path_eq hfrom, temporary_eq hfrom] using h.later

/-- Where no target has had its turn, all files are as before. -/
theorem allOrNothing_of_makes (hclear : task.Clear w)
    (h : MakesAmong (Path.ancestors task.outDir) w.tree tree) (hfails : ¬success) :
    task.AllOrNothing w tree success where
  keeps := h.keeps.mono (fun _ => False.elim) fun _ => id
  whole := fun _ _ => .inr fun _ _ => h.hasFile_iff
  complete := fun hsuccess => (hfails hsuccess).elim
  temporary := fun target htarget _ _ number hn =>
    hclear.free target htarget number (h.file _ number hn)

/-- However a run ends, its targets are written as a whole or not at all. -/
theorem allOrNothing_of_ends (hnamed : task.settings.output.Named) (hclear : task.Clear w)
    (h : Ends w task.settings task.source task.outDir? task.targets success tree) :
    task.AllOrNothing w tree success := by
  cases h with
  | unread hunread hfails htree =>
    subst htree
    exact allOrNothing_of_makes hclear (.refl ..) hfails
  | unmade job failure hfrom hmaking hmakes hfails =>
    have houtDir : job.outDir = task.outDir := hfrom.placed
    exact allOrNothing_of_makes hclear (houtDir ▸ hmakes) hfails
  | made job made hfrom hmaking hmakes hruns =>
    have houtDir : job.outDir = task.outDir := hfrom.placed
    have hspares := spares_of_runs (hfrom.inForce ▸ hnamed) ((hclear.job hfrom).makes hmakes) hruns
    obtain ⟨hsettled, hwhole, hcomplete⟩ := hspares
    have hspot := hmakes.keeps.spot_eq
    simp only [hspot, path_eq hfrom, temporary_eq hfrom] at hsettled hwhole hcomplete
    have hmakes' : MakesAmong (Path.ancestors task.outDir) w.tree made := houtDir ▸ hmakes
    refine ⟨?_, fun target htarget => ?_, fun hsuccess target htarget => ?_,
      fun target htarget hretains hother => ?_⟩
    · exact (hmakes'.keeps.mono (fun _ => False.elim) fun _ => id).trans
        (hsettled.keeps.mono (fun _ => id) fun _ => False.elim)
    · refine (hwhole target htarget).imp (fun ⟨script, hscript, hfile⟩ =>
        ⟨job, script, hfrom, hscript, hfile⟩) fun hsame hapart content => ?_
      rw [hsame hapart, hmakes.hasFile_iff]
    · obtain ⟨script, hscript, hfile⟩ := hcomplete hsuccess target htarget
      exact ⟨job, script, hfrom, hscript, hfile⟩
    · refine hsettled.noFile ?_ fun number hn =>
        hclear.free target htarget number (hmakes.file _ number hn)
      rintro ⟨other, hmem, heq | ⟨hkept, heq⟩⟩
      · exact hother other hmem heq.symm
      · by_cases hsame : other = target
        · exact hretains (hsame ▸ hkept)
        · rw [← temporary_eq hfrom, ← temporary_eq hfrom] at heq
          exact (spot_temporary_ne (hfrom.inForce ▸ hnamed) w.runNumber).1 (Ne.symm hsame) heq

variable [Libraries]

end Ending

/-- A world in which files can be made but not filled, and not removed either. -/
def stuffed : World :=
  { unwritten with refuses := fun _ operation => match operation with
      | .extend .. => some ⟨.other "No space left on device (os error 28)", 5⟩
      | .remove _ => some ⟨.other "Operation not permitted (os error 1)", 0⟩
      | _ => none }

/-- A world in which nothing was written, and results cannot be printed. -/
def silenced : World :=
  { unwritten with refuses := muted.refuses }

end Task

end CommandLine

end CausalRules
