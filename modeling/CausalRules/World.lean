import CausalRules.FileTree
import CausalRules.Host

/-!
# Worlds

A world is all that a run of the command line can see and change. In a world the operations of the
system are functions, so runs can be compared. Operations fail for what stands in the file tree, and
also for any other reason there may be: for want of space or of a permission, or because nobody reads
what is printed.

- `World.Operation`, `World.Refusal`: what the system can refuse, and what comes of that.
- `World`: a file tree, the environment, what was printed, and what the system refuses.
- `World.Step`: the monad of what happens in a world.
-/

namespace CausalRules

/-- What is asked of the system. -/
inductive World.Operation
  | read (path : String)
  | size (path : String)
  | isDirectory (path : String)
  | makeDirectory (path : String)
  | create (path : String)
  | openToAppend (path : String)
  /-- Adding to the file that was opened by its path. -/
  | extend (path : String) (content : ByteArray)
  | sync (path : String)
  | rename (path newPath : String)
  | remove (path : String)
  | print (text : String)
  | printError (text : String)

/-- What comes of an operation that the system refuses. -/
structure World.Refusal where
  failure : Failure
  /-- How many bytes of a content, or characters of a text, were written all the same. -/
  written : Nat := 0
  deriving DecidableEq, Repr

/-- All that a run can see and change. -/
structure World where
  tree : FileTree
  environment : List (String × String) := []
  printed : String := ""
  errors : String := ""
  /-- The time, which does not pass during a run. -/
  time : String := ""
  runNumber : Nat := 0
  /-- What the system refuses, by the files that are there. -/
  refuses : FileTree → World.Operation → Option World.Refusal := fun _ _ => none

namespace World

/-- What happens in a world. -/
abbrev Step := StateM World

/-- An open file: its number, and the path by which it was opened. -/
structure Handle where
  number : Nat
  path : String
  deriving DecidableEq, Repr

/-- Carries out an operation unless the system refuses it. -/
def unlessRefused {α : Type} (operation : Operation) (step : Step (Except Failure α)) :
    Step (Except Failure α) := do
  let world ← get
  match world.refuses world.tree operation with
  | some refusal => return .error refusal.failure
  | none => step

/-- A question to the file tree. -/
def ask {α : Type} (question : FileTree → α) : Step α :=
  return question (← get).tree

/-- A change of the file tree, which happens only if it succeeds. -/
def change {α : Type} (operation : FileTree → Except Failure (α × FileTree)) :
    Step (Except Failure α) := do
  match operation (← get).tree with
  | .error failure => return .error failure
  | .ok (result, tree) =>
    modify fun world => { world with tree := tree }
    return .ok result

/-- A change of the file tree without a result. -/
def changeOnly (operation : FileTree → Except Failure FileTree) : Step (Except Failure Unit) :=
  change fun tree => (operation tree).map fun tree => ((), tree)

/-- A change of the file tree that opens the file with a path. -/
def opening (path : String) (operation : FileTree → Except Failure (Nat × FileTree)) :
    Step (Except Failure Handle) :=
  change fun tree => (operation tree).map fun opened => (⟨opened.1, path⟩, opened.2)

/-- Writes a text or a content, or the part of it that is written where the system refuses the rest. -/
def writing (operation : Operation) (whole : World → World) (part : Nat → World → World) :
    Step (Except Failure Unit) := do
  let world ← get
  match world.refuses world.tree operation with
  | some refusal =>
    modify (part refusal.written)
    return .error refusal.failure
  | none =>
    modify whole
    return .ok ()

/-- Adds to the end of an open file. -/
def extendFile (handle : Handle) (content : ByteArray) (world : World) : World :=
  { world with tree := world.tree.append handle.number content }

/-- Adds to what was printed. -/
def addPrinted (text : String) (world : World) : World :=
  { world with printed := world.printed ++ text }

/-- Adds to what was printed where errors are shown. -/
def addErrors (text : String) (world : World) : World :=
  { world with errors := world.errors ++ text }

/-- The first characters of a text. -/
def firstOf (text : String) (count : Nat) : String :=
  String.ofList (text.toList.take count)

instance : Host Step Handle where
  environment name := return (← get).environment.lookup name
  read path := unlessRefused (.read path) (ask (·.read path))
  size path := unlessRefused (.size path) (ask (·.size path))
  isDirectory path := do
    let found ← unlessRefused (.isDirectory path) (ask fun tree => .ok (tree.isDirectory path))
    return found matches .ok true
  makeDirectory path := unlessRefused (.makeDirectory path) (changeOnly (·.makeDirectory path))
  create path := unlessRefused (.create path) (opening path (·.create path))
  openToAppend path := unlessRefused (.openToAppend path) (opening path (·.openFile path))
  extend handle content := writing (.extend handle.path content) (extendFile handle content)
    fun count => extendFile handle (content.extract 0 count)
  sync handle := unlessRefused (.sync handle.path) (return .ok ())
  rename path newPath := unlessRefused (.rename path newPath) (changeOnly (·.rename path newPath))
  remove path := unlessRefused (.remove path) (changeOnly (·.remove path))
  print text := writing (.print text) (addPrinted text) fun count => addPrinted (firstOf text count)
  printError text := writing (.printError text) (addErrors text) fun count =>
    addErrors (firstOf text count)
  time := return (← get).time
  runNumber := return (← get).runNumber

end World

end CausalRules
