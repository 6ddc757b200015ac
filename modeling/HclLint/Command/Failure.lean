/-
# Failures

Why a check of a directory comes to no report. As with snapshots, the words of the library that
decodes the settings are no part of a message.
-/

import HclLint.Files.Tree
import HclLint.Model.SourceError

namespace HclLint.Command

open HclLint.Files HclLint.Model

/-- What keeps a check from its end. -/
inductive Failure where
  | unlistable (directory : String) (fault : ReadFault)
  | unreadable (path : String) (fault : ReadFault)
  /-- A source file or a file of assignments has a fault. -/
  | malformed (error : SourceError)
  /-- The file holds no settings. -/
  | invalidSettings (path : String)
  deriving DecidableEq, Repr

/-- The wording of a failure, up to the words of a decoder. -/
def Failure.message : Failure → String
  | .unlistable directory fault => s!"Failed to read directory {directory}: {fault.message}"
  | .unreadable path fault => s!"Failed to read {path}: {fault.message}"
  | .malformed error => s!"Parse error: {error.message}"
  | .invalidSettings path => s!"Invalid configuration in {path}"

end HclLint.Command
