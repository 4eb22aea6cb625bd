import CausalRules.Failure
import CausalRules.Path

/-!
# What the command line needs of the system

- `Host`: the operations, for any monad in which they can be carried out. `Host.write` makes a file
  with a content.
- `makeDirectories`: makes a directory with those above it.
- `readAtMost`: reads a file that is not too large.
- `replaceFile`: writes a file in one step, by way of a temporary one beside it.
-/

namespace CausalRules

/-- A monad in which the operations of the system can be carried out. `Handle` is what an open file
is known by. -/
class Host (m : Type → Type) (Handle : outParam Type) where
  /-- The value of an environment variable. -/
  environment (name : String) : m (Option String)
  /-- The content of a file. -/
  read (path : String) : m (Except Failure ByteArray)
  /-- The size of a file or a directory. -/
  size (path : String) : m (Except Failure Nat)
  isDirectory (path : String) : m Bool
  makeDirectory (path : String) : m (Except Failure Unit)
  /-- Opens a file for writing, as an empty one, after making it if need be. -/
  create (path : String) : m (Except Failure Handle)
  /-- Opens a file so that it can be added to, after making it if need be. -/
  openToAppend (path : String) : m (Except Failure Handle)
  /-- Adds to the end of an open file. A part may have been added where that fails. -/
  extend (handle : Handle) (content : ByteArray) : m (Except Failure Unit)
  /-- Waits until the content of an open file is stored. -/
  sync (handle : Handle) : m (Except Failure Unit)
  /-- Gives a file another path, in place of the file that has it. -/
  rename (path newPath : String) : m (Except Failure Unit)
  remove (path : String) : m (Except Failure Unit)
  /-- Prints a text. -/
  print (text : String) : m (Except Failure Unit)
  /-- Prints a text where errors are shown. -/
  printError (text : String) : m (Except Failure Unit)
  /-- The time, as it is written in a log. -/
  time : m String
  /-- A number that no other run uses at the same time. -/
  runNumber : m Nat

variable {m : Type → Type} {Handle : Type} [Monad m] [Host m Handle]

/-- Gives a file a content, after making the file if need be, and waits until it is stored. -/
def Host.write (path : String) (content : ByteArray) : m (Except Failure Unit) := do
  match ← Host.create path with
  | .error failure => return .error failure
  | .ok handle =>
    match ← Host.extend handle content with
    | .error failure => return .error failure
    | .ok () => Host.sync handle

/-- Makes the first of the given directories; those after it are the ones above it, which are made
only if the first cannot be made without them. -/
def makeFirst : List String → m (Except Failure Unit)
  | [] => return .ok ()
  | path :: above => do
    match ← Host.makeDirectory path with
    | .ok () => return .ok ()
    | .error .notFound =>
      match ← makeFirst above with
      | .error failure => return .error failure
      | .ok () => retry path
    | .error failure => unlessDirectory path failure
where
  /-- A failure to make a directory, unless there already is one. -/
  unlessDirectory (path : String) (failure : Failure) : m (Except Failure Unit) := do
    if ← Host.isDirectory path then return .ok () else return .error failure
  /-- Makes a directory once those above it are there. -/
  retry (path : String) : m (Except Failure Unit) := do
    match ← Host.makeDirectory path with
    | .ok () => return .ok ()
    | .error failure => unlessDirectory path failure

/-- Makes a directory with those above it, as far as they are not there. -/
def makeDirectories (path : String) : m (Except Failure Unit) :=
  makeFirst (Path.ancestors path)

/-- Why a file is not read. -/
inductive ReadFailure
  | failure (failure : Failure)
  | tooLarge (size limit : Nat)
  deriving DecidableEq, Repr

/-- Reads a file of at most the given number of bytes. -/
def readAtMost (limit : Nat) (path : String) : m (Except ReadFailure ByteArray) := do
  match ← Host.size path with
  | .error failure => return .error (.failure failure)
  | .ok size =>
    if limit < size then return .error (.tooLarge size limit)
    match ← Host.read path with
    | .error failure => return .error (.failure failure)
    | .ok content =>
      if limit < content.size then return .error (.tooLarge content.size limit)
      return .ok content

/-- The temporary file that holds a content before it takes the place of the file it is meant for. -/
def temporaryPath (path : String) (number : Nat) : String :=
  let name := (Path.parts path).getLastD "output"
  Path.sibling path s!".{name}.{number}.tmp"

/-- Replaces a file, or makes it. Nobody sees a part of the content under the file's own path. Where
that fails, what is at the temporary path is removed, if that is possible. -/
def replaceFile (path : String) (content : ByteArray) : m (Except Failure Unit) := do
  let temporary := temporaryPath path (← Host.runNumber)
  let result ← match ← Host.write temporary content with
    | .error failure => pure (.error failure)
    | .ok () => Host.rename temporary path
  if let .error _ := result then
    let _ ← Host.remove temporary
  return result

end CausalRules
