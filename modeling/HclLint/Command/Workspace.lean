/-
# Workspaces

The source files of a directory are the files right inside of it whose names end in `.tf`.
Directories inside of it are workspaces of their own.
-/

import HclLint.Command.Failure
import HclLint.Files.Task
import HclLint.Model.SourceSet

namespace HclLint.Command

open HclLint.Text HclLint.Files HclLint.Model

/-- The text of a file. -/
def readFile (path : String) : Task Failure String :=
  (Task.readText path).mapError (.unreadable path)

/-- The name under which the file at a path is known in a workspace: its path from there, if
it is inside. -/
def displayName (directory path : String) : String :=
  (Path.relativeTo? directory path).getD path

namespace Workspace

/-- The ending of a source file. -/
def sourceExtension : String := "tf"

/-- Adds the file with a name, if it is a source file. -/
def loadFile (directory : String) (sources : SourceSet) (name : String) :
    Task Failure SourceSet :=
  let path := Path.join directory name
  .isFile path fun isThere =>
    if isThere && Path.extension? path == some sourceExtension then
      .note ⟨.debug, .workspace, s!"loading {path}"⟩ do
        return sources.insert ⟨name, ← readFile path⟩
    else pure sources

/-- The source files of a directory. -/
def load (directory : String) : Task Failure SourceSet := do
  let names ← (Task.listNames directory).mapError (.unlistable directory)
  (names.mergeSort (· ≤ ·)).foldlM (loadFile directory) .empty

end Workspace

end HclLint.Command
