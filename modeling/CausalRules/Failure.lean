/-!
# Failures of the system

What the system answers when it refuses an operation on files.
-/

namespace CausalRules

/-- Why the system refuses an operation on files. -/
inductive Failure
  | notFound
  | alreadyExists
  | notDirectory
  | isDirectory
  | nameTooLong
  /-- A path holds the character that ends texts for the system. -/
  | endMarkInPath
  /-- Any other reason, in the system's words. -/
  | other (reason : String)
  deriving DecidableEq, Repr

/-- The wording of a failure. -/
def Failure.message : Failure → String
  | notFound => "No such file or directory (os error 2)"
  | alreadyExists => "File exists (os error 17)"
  | notDirectory => "Not a directory (os error 20)"
  | isDirectory => "Is a directory (os error 21)"
  | nameTooLong => "File name too long (os error 36)"
  | endMarkInPath => "file name contained an unexpected NUL byte"
  | other reason => reason

end CausalRules
