/-!
# Files

What the program finds under a path.
-/

namespace Reckoner

inductive FileFault where
  | missing
  | directory
  /-- A file stands where the path goes through. -/
  | blocked
  deriving DecidableEq, Repr

def FileFault.message : FileFault → String
  | missing => "No such file or directory (os error 2)"
  | directory => "Is a directory (os error 21)"
  | blocked => "Not a directory (os error 20)"

/-- The content under a path, if a file is there. -/
abbrev File :=
  Except FileFault ByteArray

end Reckoner
