/-! # Why a file operation fails

The reasons and the wording that the operating system gives them, with its error numbers. -/

namespace Manifest.Disk

/-- Why a file operation fails. -/
inductive Error
  | notFound
  | alreadyThere
  | notDirectory
  | isDirectory
  | nameTooLong
  | notEmpty
  | tooManyLinks
  /-- A path holds a NUL character. -/
  | nulInPath
  /-- The bytes of a file that is read as a text are not UTF-8. -/
  | notUtf8
  /-- A directory cannot be made because nothing above it can. -/
  | noAncestor
deriving DecidableEq, Repr

/-- A wording with an error number behind it. -/
def Error.numbered (wording : String) (number : Nat) : String :=
  wording ++ " (os error " ++ toString number ++ ")"

/-- The wording of an error. -/
def Error.message : Error → String
  | notFound => numbered "No such file or directory" 2
  | alreadyThere => numbered "File exists" 17
  | notDirectory => numbered "Not a directory" 20
  | isDirectory => numbered "Is a directory" 21
  | nameTooLong => numbered "File name too long" 36
  | notEmpty => numbered "Directory not empty" 39
  | tooManyLinks => numbered "Too many levels of symbolic links" 40
  | nulInPath => "file name contained an unexpected NUL byte"
  | notUtf8 => "stream did not contain valid UTF-8"
  | noAncestor => "failed to create whole tree"

end Manifest.Disk
