import CausalRules.CommandLine.Run
import CausalRules.Log.Stamp
import Std.Time.DateTime.Timestamp

/-!
# The program

Carries out the operations that the command line needs on the files, the environment and the terminal
of the machine.
-/

namespace CausalRules.Machine

/-- The number and the words of an error of the machine. -/
def errorParts : IO.Error → Option (Nat × String)
  | .alreadyExists _ code words | .otherError code words | .resourceBusy code words
  | .resourceVanished code words | .unsupportedOperation code words | .hardwareFault code words
  | .unsatisfiedConstraints code words | .illegalOperation code words | .protocolError code words
  | .timeExpired code words | .interrupted _ code words | .noFileOrDirectory _ code words
  | .invalidArgument _ code words | .permissionDenied _ code words
  | .resourceExhausted _ code words | .inappropriateType _ code words
  | .noSuchThing _ code words => some (code.toNat, words)
  | .unexpectedEof | .userError _ => none

/-- The failure that an error of the machine stands for. -/
def failureOf (error : IO.Error) : Failure :=
  match errorParts error with
  | some (2, _) => .notFound
  | some (17, _) => .alreadyExists
  | some (20, _) => .notDirectory
  | some (21, _) => .isDirectory
  | some (36, _) => .nameTooLong
  | some (code, words) => .other s!"{words} (os error {code})"
  | none => .other (toString error)

/-- Carries out an operation and keeps its failure. -/
def attempt {α : Type} (operation : IO α) : IO (Except Failure α) := do
  try
    return .ok (← operation)
  catch error =>
    return .error (failureOf error)

/-- Carries out an operation on a path. -/
def attemptAt {α : Type} (path : String) (operation : IO α) : IO (Except Failure α) :=
  if path.toList.contains '\x00' then return .error .endMarkInPath else attempt operation

/-- Prints a text at once. -/
def printTo (stream : IO.FS.Stream) (text : String) : IO (Except Failure Unit) :=
  attempt do
    stream.putStr text
    stream.flush

/-- The size that is reported for a directory, in bytes. -/
def directorySize : Nat := 4096

instance : Host IO IO.FS.Handle where
  environment name := IO.getEnv name
  read path := attemptAt path (IO.FS.readBinFile path)
  size path := do
    match ← attemptAt path (IO.FS.readBinFile path) with
    | .ok content => return .ok content.size
    | .error .isDirectory => return .ok directorySize
    | .error failure => return .error failure
  isDirectory path := do
    match ← attemptAt path (IO.FS.readBinFile path) with
    | .error .isDirectory => return true
    | _ => return false
  makeDirectory path := attemptAt path (IO.FS.createDir path)
  create path := attemptAt path (IO.FS.Handle.mk path .write)
  openToAppend path := attemptAt path (IO.FS.Handle.mk path .append)
  extend handle content := attempt do
    handle.write content
    handle.flush
  sync handle := attempt handle.flush
  rename path newPath := attemptAt path (IO.FS.rename path newPath)
  remove path := attemptAt path (IO.FS.removeFile path)
  print text := do printTo (← IO.getStdout) text
  printError text := do printTo (← IO.getStderr) text
  time := do
    let now ← Std.Time.Timestamp.now
    return Log.stamp (now.toNanosecondsSinceUnixEpoch.val.toNat / 1000)
  runNumber := IO.monoNanosNow

end CausalRules.Machine

/-- Carries out the arguments of the command line. -/
def main (arguments : List String) : IO UInt32 := do
  return (← CausalRules.CommandLine.execute arguments).toUInt32
