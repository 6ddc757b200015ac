/-
# File trees

Files and directories as a value, and paths followed through them. A path is followed from
the top of the tree; what lies outside of the tree is empty.

## Main definitions

* `FileTree.find`: what a path leads to.
* `FileTree.read`, `FileTree.list`, `FileTree.isFile`: what can be asked about a path.
-/

import HclLint.Text.Path

namespace HclLint.Files

open HclLint.Text

/-- Why a file or a directory cannot be read. -/
inductive ReadFault where
  | missing | isDirectory | notDirectory | nameTooLong
  /-- The path holds a null character. -/
  | nullInName
  /-- The content of the file is no text in UTF-8. -/
  | notText
  /-- The system gives another reason, with its number. -/
  | other (reason : String) (code : Nat)
  deriving DecidableEq, Repr

/-- The wording of a fault. -/
def ReadFault.message : ReadFault → String
  | .missing => "No such file or directory (os error 2)"
  | .isDirectory => "Is a directory (os error 21)"
  | .notDirectory => "Not a directory (os error 20)"
  | .nameTooLong => "File name too long (os error 36)"
  | .nullInName => "file name contained an unexpected NUL byte"
  | .other reason code => s!"{reason} (os error {code})"
  | .notText => "stream did not contain valid UTF-8"

/-- A file with its content, or a directory with its entries. -/
inductive FileTree where
  | file (content : ByteArray)
  | directory (entries : List (String × FileTree))
  deriving Inhabited

namespace FileTree

/-- The entry with a name. -/
def child? (name : String) : List (String × FileTree) → Option FileTree
  | [] => none
  | (n, tree) :: rest => if n = name then some tree else child? name rest

/-- The greatest size of a name in bytes. -/
def longestName : Nat := 255

/-- The greatest size of a path in bytes. -/
def longestPath : Nat := 4095

/-- Follows the stretches of a path, the directories above being kept for steps back up. -/
def follow : List FileTree → FileTree → List (List Char) → Except ReadFault FileTree
  | _, tree, [] => .ok tree
  | _, .file _, _ :: _ => .error .notDirectory
  | above, .directory entries, piece :: rest =>
    if piece = [] ∨ piece = ['.'] then follow above (.directory entries) rest
    else if piece = ['.', '.'] then
      match above with
      -- Above the top lies a directory of which nothing is known.
      | [] => follow [] (.directory []) rest
      | up :: higher => follow higher up rest
    else if longestName < (String.ofList piece).utf8ByteSize then .error .nameTooLong
    else
      match child? (String.ofList piece) entries with
      | some tree => follow (.directory entries :: above) tree rest
      | none => .error .missing

/-- What a path leads to. -/
def find (tree : FileTree) (path : String) : Except ReadFault FileTree :=
  if path.toList.contains '\x00' then .error .nullInName
  else if longestPath < path.utf8ByteSize then .error .nameTooLong
  else if path.isEmpty then .error .missing
  else if Path.isAbsolute path then follow [] (.directory []) (split '/' path.toList)
  else follow [] tree (split '/' path.toList)

/-- The content of a file. -/
def read (tree : FileTree) (path : String) : Except ReadFault ByteArray :=
  match tree.find path with
  | .ok (.file content) => .ok content
  | .ok (.directory _) => .error .isDirectory
  | .error fault => .error fault

/-- The names in a directory. -/
def list (tree : FileTree) (path : String) : Except ReadFault (List String) :=
  match tree.find path with
  | .ok (.directory entries) => .ok (entries.map (·.1))
  | .ok (.file _) => .error .notDirectory
  | .error fault => .error fault

/-- Whether a path leads to a file. -/
def isFile (tree : FileTree) (path : String) : Bool :=
  match tree.find path with
  | .ok (.file _) => true
  | _ => false

/-- The tree with another one at the end of a chain of names, with directories on the way. -/
def put (tree content : FileTree) : List String → FileTree
  | [] => content
  | name :: rest =>
    let entries := match tree with
      | .directory entries => entries
      | .file _ => []
    let inner := ((child? name entries).getD (.directory [])).put content rest
    .directory (entries.filter (·.1 != name) ++ [(name, inner)])

end FileTree

end HclLint.Files
