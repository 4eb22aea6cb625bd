import CausalRules.Proofs.CommandLine.Checking
import CausalRules.Proofs.FileTree.Directories
import CausalRules.Proofs.FileTree.Replacing

/-!
# What compiling comes to

A run that compiles reads, makes a directory, and goes through the targets: it replaces the file of each
by its script if it can, and reports what became of it. It stops early where something is not there or
where a report cannot be printed.

- `Changes`: a step with what holds of its result and of the file tree it leaves;
  `changes_bind`, `changes_run_bind`: steps one after the other.
- `MakesAmong`: directories were made at some of the given paths.
- `Job.Becomes`: what becomes of a target; `Job.Runs`: what becomes of targets in order.
- `changes_makeFirst`, `changes_replaceFile`, `changes_compileTarget`, `changes_runCompile`: one spec for
  each function that writes.
- `Ends`: the ways in which a run that compiles can end; `endsIn_run` says so of whole runs.
- `Compiles`: everything was read, made, written and reported. `Ends.compiles_iff` says that this is
  success.
-/

namespace CausalRules

namespace CommandLine

open World (Step)
open FileTree (Keeps Ready)

/-! ## Rules -/

/-- Whatever was printed before, the step has a result and leaves a file tree such that the property
holds of both. The environment stays as it is. -/
def Changes {α : Type} (w : World) (x : Step α) (Q : α → FileTree → Prop) : Prop :=
  ∀ v : World, v.Resembles w →
    (x v).2.Resembles (w.withTree (x v).2.tree) ∧ Q (x v).1 (x v).2.tree

section Rules

variable {α β : Type} {w : World} {x : Step α} {f : α → Step β}

theorem Changes.mono {Q R : α → FileTree → Prop} (h : Changes w x Q)
    (himp : ∀ a tree, Q a tree → R a tree) : Changes w x R := fun v hv =>
  ⟨(h v hv).1, himp _ _ (h v hv).2⟩

/-- A step that changes no file. -/
theorem Looks.changes {Q : α → String → Prop} (h : Looks w x Q) :
    Changes w x fun a tree => tree = w.tree ∧ ∃ out, Q a out := by
  intro v hv
  obtain ⟨hsame, out, -, hQ⟩ := h v hv
  exact ⟨hsame.withTree, hsame.tree, out, hQ⟩

theorem changes_pure {a : α} : Changes w (pure a) fun r tree => r = a ∧ tree = w.tree := fun _ hv =>
  ⟨hv.withTree, rfl, hv.tree⟩

theorem changes_bind {Q : α → FileTree → Prop} {R : β → FileTree → Prop} (h : Changes w x Q)
    (hf : ∀ a tree, Q a tree → Changes (w.withTree tree) (f a) R) : Changes w (x >>= f) R := by
  intro v hv
  obtain ⟨hsame, hQ⟩ := h v hv
  exact hf _ _ hQ _ hsame

/-- A question before a step. -/
theorem changes_of_asks {Q : α → Prop} {R : β → FileTree → Prop} (h : Asks w x Q)
    (hf : ∀ a, Q a → Changes w (f a) R) : Changes w (x >>= f) R := by
  refine changes_bind h.changes ?_
  rintro a _ ⟨rfl, _, -, hQ⟩
  exact hf a hQ

theorem changes_run_bind {y : Run Step α} {g : α → Run Step β}
    {Q : Except String α → FileTree → Prop} {R : Except String β → FileTree → Prop}
    (h : Changes w y.run Q) (hok : ∀ a tree, Q (.ok a) tree → Changes (w.withTree tree) (g a).run R)
    (herror : ∀ e tree, Q (.error e) tree → R (.error e) tree) : Changes w (y >>= g).run R := by
  rw [run_bind]
  refine changes_bind h fun r tree hQ => ?_
  cases r with
  | ok a => exact hok a tree hQ
  | error e =>
    refine changes_pure.mono ?_
    rintro _ t ⟨rfl, ht⟩
    rw [ht]
    exact herror e tree hQ

theorem changes_lift_bind {g : α → Run Step β} {Q : α → FileTree → Prop}
    {R : Except String β → FileTree → Prop} (h : Changes w x Q)
    (hg : ∀ a tree, Q a tree → Changes (w.withTree tree) (g a).run R) :
    Changes w ((liftM x : Run Step α) >>= g).run R := by
  rw [run_lift_bind]
  exact changes_bind h hg

end Rules

/-! ## Operations -/

section Operations

variable {α : Type} {w : World}

/-- A change of the file tree that the system may refuse. -/
theorem changes_change (operation : World.Operation)
    (change : FileTree → Except Failure (α × FileTree)) :
    Changes w (World.unlessRefused operation (World.change change)) fun r tree =>
      (∃ a, r = .ok a ∧ w.answer w.tree operation (change w.tree) = .ok (a, tree)) ∨
        ∃ failure, r = .error failure ∧ w.answer w.tree operation (change w.tree) = .error failure ∧
          tree = w.tree := by
  intro v hv
  rw [unlessRefused_apply, hv.refuses, hv.tree, World.answer]
  cases w.refuses w.tree operation with
  | some refusal => exact ⟨hv.withTree, .inr ⟨_, rfl, rfl, hv.tree⟩⟩
  | none =>
    dsimp only
    cases hchange : change w.tree with
    | error failure =>
      rw [change_of_error (hv.tree ▸ hchange)]
      exact ⟨hv.withTree, .inr ⟨failure, rfl, rfl, hv.tree⟩⟩
    | ok changed =>
      obtain ⟨a, tree⟩ := changed
      rw [change_of_ok (hv.tree ▸ hchange)]
      exact ⟨hv.withTrees tree, .inl ⟨a, rfl, rfl⟩⟩

theorem changes_changeOnly (operation : World.Operation)
    (change : FileTree → Except Failure FileTree) :
    Changes w (World.unlessRefused operation (World.changeOnly change)) fun r tree =>
      r = .ok () ∧ w.answer w.tree operation (change w.tree) = .ok tree ∨
        ∃ failure, r = .error failure ∧ w.answer w.tree operation (change w.tree) = .error failure ∧
          tree = w.tree := by
  refine (changes_change (w := w) operation fun tree =>
    (change tree).map fun tree => ((), tree)).mono fun r tree h => ?_
  rw [World.answer_map] at h
  cases hanswer : w.answer w.tree operation (change w.tree) with
  | ok changed =>
    rw [hanswer] at h
    rcases h with ⟨_, rfl, heq⟩ | ⟨_, -, heq, -⟩
    · exact .inl ⟨rfl, congrArg _ (Prod.mk.inj (Except.ok.inj heq)).2⟩
    · cases heq
  | error failure =>
    rw [hanswer] at h
    rcases h with ⟨_, -, heq⟩ | ⟨_, rfl, heq, htree⟩
    · cases heq
    · obtain rfl := Except.error.inj heq
      exact .inr ⟨_, rfl, rfl, htree⟩

theorem changes_create (path : String) :
    Changes w (Host.create path : Step _) fun r tree =>
      (∃ number, r = .ok ⟨number, path⟩ ∧
        w.answer w.tree (.create path) (w.tree.create path) = .ok (number, tree)) ∨
        ∃ failure, r = .error failure ∧
          w.answer w.tree (.create path) (w.tree.create path) = .error failure ∧ tree = w.tree := by
  refine (changes_change (w := w) (.create path) fun tree =>
    (tree.create path).map fun opened =>
      ((⟨opened.1, path⟩ : World.Handle), opened.2)).mono fun r tree h => ?_
  rw [World.answer_map] at h
  cases hanswer : w.answer w.tree (.create path) (w.tree.create path) with
  | ok opened =>
    rw [hanswer] at h
    rcases h with ⟨_, rfl, heq⟩ | ⟨_, -, heq, -⟩
    · obtain ⟨rfl, rfl⟩ := Prod.mk.inj (Except.ok.inj heq)
      exact .inl ⟨opened.1, rfl, rfl⟩
    · cases heq
  | error failure =>
    rw [hanswer] at h
    rcases h with ⟨_, -, heq⟩ | ⟨_, rfl, heq, htree⟩
    · cases heq
    · obtain rfl := Except.error.inj heq
      exact .inr ⟨_, rfl, rfl, htree⟩

/-- An open file is added to. Where that is refused, a part may have been added. -/
theorem changes_extend (handle : World.Handle) (content : ByteArray) :
    Changes w (Host.extend handle content : Step _) fun r tree =>
      (r = .ok () ∧ w.Grants w.tree (.extend handle.path content) ∧
        tree = w.tree.append handle.number content) ∨
      ∃ refusal part, w.refuses w.tree (.extend handle.path content) = some refusal ∧
        r = .error refusal.failure ∧ tree = w.tree.append handle.number part := by
  intro v hv
  rw [show (Host.extend handle content : Step _) v = _ from writing_apply _ _ _ v, hv.refuses, hv.tree,
    World.Grants]
  cases w.refuses w.tree (.extend handle.path content) with
  | some refusal =>
    exact ⟨hv.withTrees _, .inr ⟨refusal, _, rfl, rfl, by rw [← hv.tree]; rfl⟩⟩
  | none => exact ⟨hv.withTrees _, .inl ⟨rfl, rfl, by rw [← hv.tree]; rfl⟩⟩

theorem asks_sync (w : World) (handle : World.Handle) :
    Asks w (Host.sync handle : Step _) (· = w.answer w.tree (.sync handle.path) (.ok ())) :=
  asks_unlessRefused w (.sync handle.path) fun _ => .ok ()

theorem asks_isDirectory (w : World) (path : String) :
    Asks w (Host.isDirectory path : Step _) (· = w.isDirectory w.tree path) := by
  refine asks_bind (asks_unlessRefused w (.isDirectory path) fun tree => .ok (tree.isDirectory path)) ?_
  rintro _ rfl
  exact asks_pure

theorem asks_runNumber (w : World) : Asks w (Host.runNumber : Step Nat) (· = w.runNumber) :=
  fun _ hv => ⟨hv, "", (String.append_empty).symm, rfl, hv.runNumber⟩

end Operations

/-! ## Making directories -/

/-- Directories were made at some of the paths, and nothing else was changed. -/
structure MakesAmong (paths : List String) (tree tree' : FileTree) : Prop where
  keeps : Keeps (fun _ => False) (fun l => ∃ path ∈ paths, l = tree.spot path) tree tree'
  file : ∀ l number, tree'.entry? l = some (.file number) → tree.entry? l = some (.file number)
  ready : ∀ temporary, Ready temporary tree → Ready temporary tree'

section Directories

variable {paths : List String} {tree tree' tree'' : FileTree}

theorem MakesAmong.refl (paths : List String) (tree : FileTree) : MakesAmong paths tree tree :=
  ⟨.refl tree, fun _ _ => id, fun _ => id⟩

theorem MakesAmong.trans (h : MakesAmong paths tree tree') (h' : MakesAmong paths tree' tree'') :
    MakesAmong paths tree tree'' := by
  refine ⟨h.keeps.trans (h'.keeps.mono (fun _ => id) ?_), fun l n hl => h.file l n (h'.file l n hl),
    fun t ht => h'.ready t (h.ready t ht)⟩
  rintro l ⟨path, hpath, rfl⟩
  exact ⟨path, hpath, h.keeps.spot_eq path⟩

theorem MakesAmong.mono {more : List String} (h : MakesAmong paths tree tree')
    (hmore : ∀ path ∈ paths, path ∈ more) : MakesAmong more tree tree' :=
  ⟨h.keeps.mono (fun _ => id) fun _ ⟨path, hpath, hl⟩ => ⟨path, hmore path hpath, hl⟩, h.file,
    h.ready⟩

/-- Files are as they were. -/
theorem MakesAmong.hasFile_iff (h : MakesAmong paths tree tree') {location : Location}
    {content : ByteArray} : tree'.HasFile location content ↔ tree.HasFile location content := by
  constructor
  · rintro ⟨number, hentry, rfl⟩
    have hentry' := h.file location number hentry
    exact ⟨number, hentry', (h.keeps.content location number not_false hentry').symm⟩
  · rintro ⟨number, hentry, rfl⟩
    exact ⟨number, (h.keeps.entry location not_false fun _ => hentry ▸ nofun).trans hentry,
      h.keeps.content location number not_false hentry⟩

theorem makesAmong_of_makeDirectory {path : String} (hpath : path ∈ paths)
    (h : tree.makeDirectory path = .ok tree') : MakesAmong paths tree tree' :=
  ⟨(FileTree.keeps_makeDirectory h).mono (fun _ => id) fun _ hl => ⟨path, hpath, hl⟩,
    fun _ _ => FileTree.entry_of_makeDirectory h, fun _ => FileTree.ready_makeDirectory h⟩

variable {w : World}

theorem changes_unlessDirectory (w : World) (path : String) (failure : Failure) :
    Changes w (makeFirst.unlessDirectory path failure : Step _) fun r tree =>
      (w.unlessDirectory w.tree path failure, w.tree) = (r, tree) := by
  refine changes_of_asks (asks_isDirectory w path) ?_
  rintro _ rfl
  rw [World.unlessDirectory]
  split <;> exact changes_pure.mono fun _ _ h => Prod.ext h.1.symm h.2.symm

/-- What making directories comes to is decided by the file tree, and by what the system refuses. -/
theorem changes_makeFirst (w : World) (paths : List String) :
    Changes w (makeFirst paths : Step _) fun r tree => w.makingFirst w.tree paths = (r, tree) := by
  induction paths generalizing w with
  | nil => exact changes_pure.mono fun _ _ h => Prod.ext h.1.symm h.2.symm
  | cons path above ih =>
    refine changes_bind (changes_changeOnly (w := w) _ _) ?_
    rintro _ made (⟨rfl, hmake⟩ | ⟨failure, rfl, hmake, rfl⟩)
    · have hmake' : w.makeDirectory w.tree path = .ok made := hmake
      rw [World.makingFirst, hmake']
      exact changes_pure.mono fun _ _ h => Prod.ext h.1.symm h.2.symm
    · have hmake' : w.makeDirectory w.tree path = .error failure := hmake
      by_cases hmissing : failure = .notFound
      · subst hmissing
        rw [World.makingFirst, hmake']
        refine changes_bind (ih _) fun r' made habove => ?_
        have habove' : w.makingFirst w.tree above = (r', made) := habove
        rw [habove']
        cases r' with
        | error failure => exact changes_pure.mono fun _ _ h => Prod.ext h.1.symm h.2.symm
        | ok =>
          dsimp only
          refine changes_bind (changes_changeOnly (w := w.withTree made) _ _) ?_
          rintro _ again (⟨rfl, hagain⟩ | ⟨failure, rfl, hagain, htree⟩)
          · have hagain' : w.makeDirectory made path = .ok again := hagain
            rw [hagain']
            exact changes_pure.mono fun _ _ h => Prod.ext h.1.symm h.2.symm
          · have hagain' : w.makeDirectory made path = .error failure := hagain
            obtain rfl : again = made := htree
            rw [hagain']
            exact changes_unlessDirectory _ path failure
      · rw [World.makingFirst_of_error hmake' hmissing]
        cases failure with
        | notFound => exact (hmissing rfl).elim
        | _ => exact changes_unlessDirectory _ path _

/-- Making a directory makes no others than those above it. -/
theorem makesAmong_of_makingFirst {r : Except Failure Unit}
    (h : w.makingFirst tree paths = (r, tree')) : MakesAmong paths tree tree' := by
  induction paths generalizing r tree' with
  | nil =>
    obtain ⟨-, rfl⟩ := Prod.mk.inj h
    exact .refl ..
  | cons path above ih =>
    have hone : ∀ {tree tree' : FileTree}, w.makeDirectory tree path = .ok tree' →
        MakesAmong (path :: above) tree tree' := fun hmake =>
      makesAmong_of_makeDirectory List.mem_cons_self (World.answer_eq_ok_iff.mp hmake).2
    cases hmake : w.makeDirectory tree path with
    | ok made =>
      rw [World.makingFirst, hmake] at h
      obtain ⟨-, rfl⟩ := Prod.mk.inj h
      exact hone hmake
    | error failure =>
      by_cases hmissing : failure = .notFound
      · subst hmissing
        rw [World.makingFirst, hmake] at h
        dsimp only at h
        cases habove : w.makingFirst tree above with
        | mk r' made =>
          have hmakes := (ih habove).mono fun _ => List.mem_cons_of_mem path
          rw [habove] at h
          cases r' with
          | error failure =>
            obtain ⟨-, rfl⟩ := Prod.mk.inj h
            exact hmakes
          | ok =>
            dsimp only at h
            cases hagain : w.makeDirectory made path with
            | ok made' =>
              rw [hagain] at h
              obtain ⟨-, rfl⟩ := Prod.mk.inj h
              exact hmakes.trans (hone hagain)
            | error failure =>
              rw [hagain] at h
              obtain ⟨-, rfl⟩ := Prod.mk.inj h
              exact hmakes
      · rw [World.makingFirst_of_error hmake hmissing] at h
        obtain ⟨-, rfl⟩ := Prod.mk.inj h
        exact .refl ..

end Directories

/-! ## Writing scripts -/

/-- The temporary file that a target's script is written to first. -/
def Job.temporary (job : Job) (number : Nat) (target : Target) : String :=
  temporaryPath (job.path target) number

/-- What becomes of a target: the outcome that is reported, and the file tree that is left. -/
inductive Job.Becomes (job : Job) (w : World) (target : Target) (tree : FileTree) :
    Except String Unit → FileTree → Prop
  /-- There is no script. -/
  | unmade {error : String} (hscript : job.script target = .error error) :
    Becomes job w target tree (.error error) tree
  /-- The file was replaced by the script. -/
  | written {script : String} {tree' : FileTree} (hscript : job.script target = .ok script)
    (hreplacing : w.replacing tree (job.temporary w.runNumber target) (job.path target)
      script.toUTF8 = .ok tree') :
    Becomes job w target tree (.ok ()) tree'
  /-- The file could not be replaced. -/
  | unwritten {script : String} {failure : Failure} {tree' : FileTree}
    (hscript : job.script target = .ok script)
    (hreplacing : w.replacing tree (job.temporary w.runNumber target) (job.path target)
      script.toUTF8 = .error failure)
    (hleaves : w.Leaves tree (job.temporary w.runNumber target) tree') :
    Becomes job w target tree (.error (message "compile.write_failed"
      [("path", job.path target), ("error", failure.message)])) tree'

/-- How it is reported what became of a target. -/
def Job.announcement (job : Job) (target : Target) : Except String Unit → World.Operation
  | .ok () => .print (job.report "compile.wrote" target)
  | .error error => .printError (Job.failureReport target error)

/-- What becomes of targets, one after the other. It is a success if all are written and that is
reported. -/
inductive Job.Runs (job : Job) (w : World) : List Target → FileTree → FileTree → Prop → Prop
  | done {tree : FileTree} {success : Prop} (hsuccess : success) : Runs job w [] tree tree success
  /-- What became of a target cannot be reported, so those after it are left alone. -/
  | stopped {target : Target} {targets : List Target} {tree tree' : FileTree}
    {outcome : Except String Unit} {success : Prop}
    (hbecomes : job.Becomes w target tree outcome tree')
    (hrefused : ¬w.Grants tree' (job.announcement target outcome)) (hfails : ¬success) :
    Runs job w (target :: targets) tree tree' success
  /-- It was reported what became of a target, be it a failure, and those after it have their turn. -/
  | next {target : Target} {targets : List Target} {tree between tree' : FileTree}
    {outcome : Except String Unit} {success rest : Prop}
    (hbecomes : job.Becomes w target tree outcome between)
    (hgrants : w.Grants between (job.announcement target outcome))
    (hrest : Runs job w targets between tree' rest) (hsuccess : success ↔ outcome = .ok () ∧ rest) :
    Runs job w (target :: targets) tree tree' success

section Writing

variable {w : World} {job : Job} {target : Target} {targets : List Target}
  {tree tree' : FileTree} {outcome : Except String Unit} {success success' : Prop}

theorem changes_write (w : World) (path : String) (content : ByteArray) :
    Changes w (Host.write path content : Step _) fun r tree =>
      r = .ok () ∧ w.drafting w.tree path content = .ok tree ∨
        ∃ failure, r = .error failure ∧ w.drafting w.tree path content = .error failure ∧
          (tree = w.tree ∨ ∃ part, w.tree.draft path part = .ok tree) := by
  refine changes_bind (changes_create (w := w) path) ?_
  rintro _ begun (⟨number, rfl, hcreate⟩ | ⟨failure, rfl, hcreate, rfl⟩)
  · have hparts : ∀ part, w.tree.draft path part = .ok (begun.append number part) := by
      have hcreate' := (World.answer_eq_ok_iff.mp hcreate).2
      rcases w.tree.create_cases path with ⟨failure, hfails, -⟩ | ⟨_, _, hmade, hdraft⟩
      · cases hcreate'.symm.trans hfails
      · obtain ⟨rfl, rfl⟩ := Prod.mk.inj (Except.ok.inj (hcreate'.symm.trans hmade))
        exact hdraft
    have hdrafting : w.drafting w.tree path content =
        (w.answer begun (.extend path content) (.ok (begun.append number content))).bind
          fun drafted => w.answer drafted (.sync path) (.ok drafted) := by
      rw [World.drafting, hcreate]
      rfl
    rw [hdrafting]
    refine changes_bind (changes_extend (w := w.withTree begun) ⟨number, path⟩ content) ?_
    rintro _ drafted (⟨rfl, hextend, rfl⟩ | ⟨refusal, part, hrefuses, rfl, rfl⟩)
    · have hextend' : w.Grants begun (.extend path content) := hextend
      rw [World.answer_of_grants hextend']
      refine (asks_sync (w.withTree (begun.append number content)) ⟨number, path⟩).changes.mono ?_
      rintro r _ ⟨rfl, _, -, hanswer⟩
      have hsync : r = w.answer (begun.append number content) (.sync path) (.ok ()) := hanswer
      rcases w.grants_or_refused (begun.append number content) (.sync path) with hgrants | ⟨_, hrefuses⟩
      · rw [hsync, Except.bind, World.answer_of_grants hgrants, World.answer_of_grants hgrants]
        exact .inl ⟨rfl, rfl⟩
      · rw [hsync, Except.bind, World.answer_of_refused hrefuses, World.answer_of_refused hrefuses]
        exact .inr ⟨_, rfl, rfl, .inr ⟨content, hparts content⟩⟩
    · have hrefuses' : w.refuses begun (.extend path content) = some refusal := hrefuses
      rw [World.answer_of_refused hrefuses']
      refine changes_pure.mono ?_
      rintro _ _ ⟨rfl, rfl⟩
      exact .inr ⟨_, rfl, rfl, .inr ⟨part, hparts part⟩⟩
  · have hdrafting : w.drafting w.tree path content = .error failure := by
      rw [World.drafting, hcreate]
      rfl
    refine changes_pure.mono ?_
    rintro _ _ ⟨rfl, rfl⟩
    exact .inr ⟨failure, rfl, hdrafting, .inl rfl⟩

/-- Where a file cannot be replaced, the temporary file is removed from what there is. -/
theorem changes_remove (w : World) {tree failed : FileTree} {temporary : String} (failure : Failure)
    (hfailed : failed = tree ∨ ∃ part, tree.draft temporary part = .ok failed) :
    Changes (w.withTree failed) (do
      let _ ← Host.remove temporary
      return .error failure : Step (Except Failure Unit)) fun r tree' =>
        r = .error failure ∧ w.Leaves tree temporary tree' := by
  refine changes_bind (changes_changeOnly (w := w.withTree failed) _ _) ?_
  rintro _ removed (⟨-, hanswer⟩ | ⟨failure', -, hanswer, hremoved⟩)
  · have hanswer' : w.answer failed (.remove temporary) (failed.remove temporary) = .ok removed :=
      hanswer
    refine changes_pure.mono ?_
    rintro _ _ ⟨rfl, htree⟩
    refine ⟨rfl, failed, hfailed, ?_⟩
    rw [hanswer']
    exact htree
  · have hanswer' : w.answer failed (.remove temporary) (failed.remove temporary) = .error failure' :=
      hanswer
    refine changes_pure.mono ?_
    rintro _ _ ⟨rfl, htree⟩
    refine ⟨rfl, failed, hfailed, ?_⟩
    rw [hanswer']
    exact htree.trans hremoved

/-- A file is replaced, or what could not be used is removed. -/
theorem changes_replaceFile (w : World) (path : String) (content : ByteArray) :
    Changes w (replaceFile path content : Step _) fun r tree =>
      r = .ok () ∧ w.replacing w.tree (temporaryPath path w.runNumber) path content = .ok tree ∨
        ∃ failure, r = .error failure ∧
          w.replacing w.tree (temporaryPath path w.runNumber) path content = .error failure ∧
            w.Leaves w.tree (temporaryPath path w.runNumber) tree := by
  unfold replaceFile
  refine changes_of_asks (asks_runNumber w) ?_
  rintro _ rfl
  refine changes_bind (changes_write w _ content) ?_
  rintro _ drafted (⟨rfl, hdrafting⟩ | ⟨failure, rfl, hdrafting, hfailed⟩)
  · have hreplacing : w.replacing w.tree (temporaryPath path w.runNumber) path content =
        w.answer drafted (.rename (temporaryPath path w.runNumber) path)
          (drafted.rename (temporaryPath path w.runNumber) path) := by
      rw [World.replacing, hdrafting]
      rfl
    rw [hreplacing]
    refine changes_bind (changes_changeOnly (w := w.withTree drafted) _ _) ?_
    rintro _ renamed (⟨rfl, hanswer⟩ | ⟨failure, rfl, hanswer, htree⟩)
    · refine changes_pure.mono ?_
      rintro _ _ ⟨rfl, rfl⟩
      exact .inl ⟨rfl, hanswer⟩
    · obtain rfl : renamed = drafted := htree
      refine (changes_remove w failure
        (.inr ⟨content, World.draft_of_drafting hdrafting⟩)).mono ?_
      rintro _ _ ⟨rfl, hleaves⟩
      exact .inr ⟨failure, rfl, hanswer, hleaves⟩
  · refine changes_bind changes_pure ?_
    rintro _ tree ⟨rfl, htree⟩
    obtain rfl : tree = drafted := htree
    refine (changes_remove w failure hfailed).mono ?_
    rintro _ _ ⟨rfl, hleaves⟩
    refine .inr ⟨failure, rfl, ?_, hleaves⟩
    rw [World.replacing, hdrafting]
    rfl

theorem changes_becomes (w : World) (job : Job) (target : Target) :
    Changes w (job.write target : Step _) fun r tree => job.Becomes w target w.tree r tree := by
  unfold Job.write
  cases hscript : job.script target with
  | error error =>
    refine changes_pure.mono ?_
    rintro _ _ ⟨rfl, rfl⟩
    exact .unmade hscript
  | ok script =>
    refine changes_bind (changes_replaceFile w _ _) ?_
    rintro _ tree (⟨rfl, hreplacing⟩ | ⟨failure, rfl, hreplacing, hleaves⟩)
    · refine changes_pure.mono ?_
      rintro _ _ ⟨rfl, rfl⟩
      exact .written hscript hreplacing
    · refine changes_pure.mono ?_
      rintro _ _ ⟨rfl, rfl⟩
      exact .unwritten hscript hreplacing hleaves

/-! What becomes of targets does not depend on the files that the world itself has. -/

theorem Job.Becomes.of_withTree {base : FileTree}
    (h : job.Becomes (w.withTree base) target tree outcome tree') :
    job.Becomes w target tree outcome tree' := by
  cases h with
  | unmade hscript => exact .unmade hscript
  | written hscript hreplacing => exact .written hscript hreplacing
  | unwritten hscript hreplacing hleaves => exact .unwritten hscript hreplacing hleaves

theorem Job.Runs.of_withTree {base : FileTree}
    (h : job.Runs (w.withTree base) targets tree tree' success) :
    job.Runs w targets tree tree' success := by
  induction h with
  | done hsuccess => exact .done hsuccess
  | stopped hbecomes hrefused hfails => exact .stopped hbecomes.of_withTree hrefused hfails
  | next hbecomes hgrants _ hsuccess ih => exact .next hbecomes.of_withTree hgrants ih hsuccess

theorem Job.Runs.congr (h : job.Runs w targets tree tree' success) (hiff : success ↔ success') :
    job.Runs w targets tree tree' success' := by
  rwa [← propext hiff]

theorem Verdict.ofParts_cons_eq_success_iff {verdict : Verdict} {verdicts : List Verdict} :
    Verdict.ofParts (verdict :: verdicts) = .success ↔
      verdict = .success ∧ Verdict.ofParts verdicts = .success := by
  cases verdict with
  | success => simp [Verdict.ofParts]
  | failure => simp [Verdict.ofParts]

variable [Libraries] {logger : Logger World.Handle}

/-- What is printed or logged before a step makes no difference to it. -/
theorem changes_note_bind {α : Type} (h : logger.ToTerminal w) (events : List Log.Event)
    {g : Unit → Run Step α} {R : Except String α → FileTree → Prop} (hg : Changes w (g ()).run R) :
    Changes w (note logger events >>= g).run R := by
  refine changes_run_bind (asks_note h events).changes ?_ ?_
  · rintro _ _ ⟨rfl, -⟩
    exact hg
  · rintro e _ ⟨-, _, -, heq⟩
    cases heq

/-- A target is written or not, and that is reported, or the run stops. -/
theorem changes_compileTarget (hlogger : logger.ToTerminal w) (job : Job) (target : Target) :
    Changes w (job.compileTarget logger target : Run Step _).run fun r tree =>
      ∃ outcome, job.Becomes w target w.tree outcome tree ∧
        (w.Grants tree (job.announcement target outcome) ∧
            (∃ verdict, r = .ok verdict ∧ (verdict = .success ↔ outcome = .ok ())) ∨
          ¬w.Grants tree (job.announcement target outcome) ∧ ∃ e, r = .error e) := by
  unfold Job.compileTarget
  refine changes_note_bind hlogger _ ?_
  refine changes_lift_bind (changes_becomes w job target) fun outcome tree hbecomes => ?_
  have hlogger' := hlogger.withTree tree
  cases outcome with
  | ok =>
    have hreport : Looks (w.withTree tree) (ExceptT.run (do
        note logger [.wrote target (job.path target)]
        print (job.report "compile.wrote" target)
        return Verdict.success) : Step _) fun r _ =>
          w.Grants tree (.print (job.report "compile.wrote" target)) ∧ r = .ok .success ∨
            ¬w.Grants tree (.print (job.report "compile.wrote" target)) ∧ ∃ e, r = .error e :=
      looks_note_bind hlogger' _ (looks_print_bind
        (fun hgrants => looks_return (.inl ⟨hgrants, rfl⟩)) fun hrefused e _ =>
          .inr ⟨hrefused, e, rfl⟩)
    refine hreport.changes.mono ?_
    rintro r _ ⟨rfl, _, hr⟩
    refine ⟨_, hbecomes, hr.imp_left ?_⟩
    rintro ⟨hgrants, rfl⟩
    exact ⟨hgrants, _, rfl, ⟨fun _ => rfl, fun _ => rfl⟩⟩
  | error error =>
    have hreport : Looks (w.withTree tree) (ExceptT.run (do
        note logger [.failed target]
        printError (Job.failureReport target error)
        return Verdict.failure) : Step _) fun r _ =>
          w.Grants tree (.printError (Job.failureReport target error)) ∧ r = .ok .failure ∨
            ¬w.Grants tree (.printError (Job.failureReport target error)) ∧ ∃ e, r = .error e :=
      looks_note_bind hlogger' _ (looks_printError_bind
        (fun hgrants => looks_return (.inl ⟨hgrants, rfl⟩)) fun hrefused e => .inr ⟨hrefused, e, rfl⟩)
    refine hreport.changes.mono ?_
    rintro r _ ⟨rfl, _, hr⟩
    refine ⟨_, hbecomes, hr.imp_left ?_⟩
    rintro ⟨hgrants, rfl⟩
    exact ⟨hgrants, _, rfl, ⟨nofun, nofun⟩⟩

theorem changes_compileTargets (hlogger : logger.ToTerminal w) (job : Job) (targets : List Target) :
    Changes w (targets.mapM (job.compileTarget logger) : Run Step _).run fun r tree =>
      job.Runs w targets w.tree tree
        (∃ verdicts, r = .ok verdicts ∧ Verdict.ofParts verdicts = .success) := by
  induction targets generalizing w with
  | nil =>
    refine changes_pure.mono ?_
    rintro _ _ ⟨rfl, rfl⟩
    exact .done ⟨[], rfl, rfl⟩
  | cons target targets ih =>
    rw [List.mapM_cons]
    refine changes_run_bind (changes_compileTarget hlogger job target) ?_ ?_
    · rintro verdict between ⟨outcome, hbecomes, ⟨hgrants, _, heq, hverdict⟩ | ⟨-, _, heq⟩⟩
      · obtain rfl := Except.ok.inj heq
        refine changes_run_bind (ih (hlogger.withTree between)) ?_ ?_
        · intro verdicts tree hrest
          refine changes_pure.mono ?_
          rintro _ _ ⟨rfl, rfl⟩
          refine .next hbecomes hgrants hrest.of_withTree ?_
          rw [← hverdict]
          constructor
          · rintro ⟨_, heq, hsuccess⟩
            obtain rfl := Except.ok.inj heq
            obtain ⟨hfirst, hothers⟩ := Verdict.ofParts_cons_eq_success_iff.mp hsuccess
            exact ⟨hfirst, verdicts, rfl, hothers⟩
          · rintro ⟨hfirst, _, heq, hothers⟩
            obtain rfl := Except.ok.inj heq
            exact ⟨_, rfl, Verdict.ofParts_cons_eq_success_iff.mpr ⟨hfirst, hothers⟩⟩
        · intro e tree hrest
          refine .next hbecomes hgrants hrest.of_withTree ⟨?_, ?_⟩
          · rintro ⟨_, heq, -⟩
            cases heq
          · rintro ⟨-, _, heq, -⟩
            cases heq
      · cases heq
    · rintro e between ⟨outcome, hbecomes, ⟨-, _, heq, -⟩ | ⟨hrefused, -⟩⟩
      · cases heq
      · refine .stopped hbecomes hrefused ?_
        rintro ⟨_, heq, -⟩
        cases heq

end Writing

/-! ## A whole run -/

/-- How compiling can end. -/
inductive Ends (w : World) (settings : Settings) (source : Source) (outDir? : Option String)
    (targets : List Target) (success : Prop) (tree' : FileTree) : Prop
  /-- Something cannot be read, and nothing is changed. -/
  | unread (hunread : ∀ job, ¬Job.From w settings source outDir? job) (hfails : ¬success)
    (htree : tree' = w.tree)
  /-- The directory cannot be made, and nothing is changed but that some of those above it are made. -/
  | unmade (job : Job) (failure : Failure) (hfrom : Job.From w settings source outDir? job)
    (hmaking : w.makingFirst w.tree (Path.ancestors job.outDir) = (.error failure, tree'))
    (hmakes : MakesAmong (Path.ancestors job.outDir) w.tree tree') (hfails : ¬success)
  /-- The directory is there, and the targets have their turns. -/
  | made (job : Job) (made : FileTree) (hfrom : Job.From w settings source outDir? job)
    (hmaking : w.makingFirst w.tree (Path.ancestors job.outDir) = (.ok (), made))
    (hmakes : MakesAmong (Path.ancestors job.outDir) w.tree made)
    (hruns : job.Runs w targets made tree' success)

/-- The file of a target was replaced by its script, and that was reported. -/
def Job.Writes (job : Job) (w : World) (target : Target) (tree tree' : FileTree) : Prop :=
  ∃ script, job.program.script job.templates target = .ok script ∧
    w.replacing tree (job.temporary w.runNumber target) (job.path target) script.toUTF8 = .ok tree' ∧
      w.Grants tree' (.print (job.report "compile.wrote" target))

/-- The files of targets were replaced, one after the other. -/
def Job.WritesAll (job : Job) (w : World) : List Target → FileTree → FileTree → Prop
  | [], tree, tree' => tree = tree'
  | target :: targets, tree, tree' =>
    ∃ between, job.Writes w target tree between ∧ job.WritesAll w targets between tree'

/-- Scripts are made from what the files give, and written behind each other into a directory that is
there or is made. -/
def Compiles (w : World) (settings : Settings) (source : Source) (outDir? : Option String)
    (targets : List Target) (tree' : FileTree) : Prop :=
  ∃ job made, Job.From w settings source outDir? job ∧
    w.makingFirst w.tree (Path.ancestors job.outDir) = (.ok (), made) ∧
      job.WritesAll w targets made tree'

section Ending

variable {w : World} {job : Job} {target : Target} {targets : List Target} {settings : Settings}
  {source : Source} {outDir? : Option String} {tree tree' : FileTree} {outcome : Except String Unit}
  {success success' : Prop}

theorem Ends.congr (hiff : success ↔ success')
    (h : Ends w settings source outDir? targets success tree) :
    Ends w settings source outDir? targets success' tree := by
  rwa [← propext hiff]

theorem Job.Becomes.writes_iff (h : job.Becomes w target tree outcome tree') (other : FileTree) :
    job.Writes w target tree other ↔
      (outcome = .ok () ∧ w.Grants tree' (job.announcement target outcome)) ∧ tree' = other := by
  constructor
  · rintro ⟨script, hmade, hreplaced, hgrants⟩
    have hmade' : job.script target = .ok script := Job.script_eq_ok.mpr hmade
    cases h with
    | unmade hscript => cases hscript.symm.trans hmade'
    | written hscript hreplacing =>
      obtain rfl := Except.ok.inj (hscript.symm.trans hmade')
      obtain rfl := Except.ok.inj (hreplacing.symm.trans hreplaced)
      exact ⟨⟨rfl, hgrants⟩, rfl⟩
    | unwritten hscript hreplacing =>
      obtain rfl := Except.ok.inj (hscript.symm.trans hmade')
      cases hreplacing.symm.trans hreplaced
  · rintro ⟨⟨hok, hgrants⟩, rfl⟩
    cases h with
    | unmade | unwritten => cases hok
    | written hscript hreplacing => exact ⟨_, Job.script_eq_ok.mp hscript, hreplacing, hgrants⟩

/-- Targets are written exactly if their run is a success. -/
theorem Job.Runs.writesAll_iff (h : job.Runs w targets tree tree' success) (other : FileTree) :
    job.WritesAll w targets tree other ↔ success ∧ tree' = other := by
  induction h with
  | done hsuccess => exact (and_iff_right hsuccess).symm
  | stopped hbecomes hrefused hfails =>
    refine ⟨?_, fun h => (hfails h.1).elim⟩
    rintro ⟨between, hwrites, -⟩
    exact (hrefused ((hbecomes.writes_iff between).mp hwrites).1.2).elim
  | next hbecomes hgrants _ hsuccess ih =>
    rw [hsuccess, and_assoc, ← ih]
    constructor
    · rintro ⟨between, hwrites, hrest⟩
      obtain ⟨⟨hok, -⟩, rfl⟩ := (hbecomes.writes_iff between).mp hwrites
      exact ⟨hok, hrest⟩
    · rintro ⟨hok, hrest⟩
      exact ⟨_, (hbecomes.writes_iff _).mpr ⟨⟨hok, hgrants⟩, rfl⟩, hrest⟩

/-- Everything is read, made and written exactly if the run is a success. -/
theorem Ends.compiles_iff (h : Ends w settings source outDir? targets success tree')
    (other : FileTree) :
    Compiles w settings source outDir? targets other ↔ success ∧ tree' = other := by
  cases h with
  | unread hunread hfails =>
    refine ⟨?_, fun h => (hfails h.1).elim⟩
    rintro ⟨job, _, hfrom, -⟩
    exact (hunread job hfrom).elim
  | unmade job failure hfrom hmaking _ hfails =>
    refine ⟨?_, fun h => (hfails h.1).elim⟩
    rintro ⟨job', _, hfrom', hmaking', -⟩
    obtain rfl := hfrom.unique hfrom'
    cases (Prod.mk.inj (hmaking.symm.trans hmaking')).1
  | made job made hfrom hmaking _ hruns =>
    rw [← hruns.writesAll_iff]
    constructor
    · rintro ⟨job', made', hfrom', hmaking', hall⟩
      obtain rfl := hfrom.unique hfrom'
      obtain ⟨-, rfl⟩ := Prod.mk.inj (hmaking.symm.trans hmaking')
      exact hall
    · exact fun hall => ⟨job, made, hfrom, hmaking, hall⟩

variable [Libraries] {logger : Logger World.Handle}

theorem changes_runCompile (hlogger : logger.ToTerminal w) (settings : Settings) (source : Source)
    (outDir? : Option String) (targets : List Target) :
    Changes w (runCompile logger settings source outDir? targets : Run Step _).run fun r tree =>
      Ends w settings source outDir? targets (r = .ok .success) tree := by
  unfold runCompile
  refine changes_run_bind (asks_prepare hlogger settings source outDir?).changes ?_ ?_
  · rintro job _ ⟨rfl, _, -, hjob⟩
    have hfrom : Job.From w settings source outDir? job := (hjob job).mp rfl
    refine changes_lift_bind (changes_makeFirst _ (Path.ancestors job.outDir)) fun r made h => ?_
    have hmaking : w.makingFirst w.tree (Path.ancestors job.outDir) = (r, made) := h
    have hmakes := makesAmong_of_makingFirst hmaking
    cases r with
    | error failure =>
      refine Changes.mono changes_pure ?_
      rintro _ _ ⟨rfl, rfl⟩
      exact .unmade job failure hfrom hmaking hmakes nofun
    | ok =>
      refine changes_run_bind (changes_compileTargets (hlogger.withTree made) job targets) ?_ ?_
      · intro verdicts tree hruns
        refine changes_pure.mono ?_
        rintro _ _ ⟨rfl, rfl⟩
        refine .made job made hfrom hmaking hmakes (hruns.of_withTree.congr ?_)
        exact ⟨fun ⟨_, heq, h⟩ => Except.ok.inj heq ▸ congrArg _ h,
          fun h => ⟨verdicts, rfl, Except.ok.inj h⟩⟩
      · intro e tree hruns
        refine .made job made hfrom hmaking hmakes (hruns.of_withTree.congr ⟨?_, nofun⟩)
        rintro ⟨_, heq, -⟩
        cases heq
  · rintro e _ ⟨rfl, _, -, hjob⟩
    refine .unread (fun job hfrom => ?_) nofun rfl
    cases (hjob job).mpr hfrom

/-- What a run in a world that compiles comes to. -/
structure Invocation.EndsIn (invocation : Invocation) (w : World) (settings : Settings)
    (source : Source) (outDir? : Option String) (targets : List Target)
    (result : Except String Verdict × World) : Prop where
  resembles : result.2.Resembles (w.withTree result.2.tree)
  ends : invocation.LogsToTerminal w settings →
    Ends w settings source outDir? targets (result.1 = .ok .success) result.2.tree
  stops : ¬invocation.LogsToTerminal w settings →
    result.1 ≠ .ok .success ∧ result.2.tree = w.tree

/-- Once the settings are loaded and logging is set up, a run that compiles ends in one of these ways. -/
theorem endsIn_run {invocation : Invocation} (hversion : invocation.showVersion = false)
    (hcommand : invocation.command? = some (.compile source outDir? targets))
    (hloads : invocation.Loads w settings)
    (hterminal : invocation.logFile?.or settings.log.file? = none) (hlogged : invocation.Logged w) :
    invocation.EndsIn w settings source outDir? targets ((invocation.run : Run Step _).run w) := by
  have hunique : ∀ other, invocation.Loads w other → other = settings := fun other hother =>
    Except.ok.inj (hother.symm.trans hloads)
  refine run_of_command hversion hcommand (fun other hother => hunique other hother ▸ hterminal)
    hlogged ?_ ?_
  · intro other logger v hother hlogs hlogger hv _
    obtain rfl := hunique other hother
    obtain ⟨hsame, hends⟩ := changes_runCompile hlogger other source outDir? targets v hv
    exact ⟨hsame, fun _ => hends, fun h => (h hlogs).elim⟩
  · intro hstop e v hv _
    exact ⟨hv.withTree, fun hlogs => (hstop settings hloads hlogs).elim, fun _ => ⟨nofun, hv.tree⟩⟩

end Ending

end CommandLine

end CausalRules
