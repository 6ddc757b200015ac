/-
# Paths

Paths of files, written with slashes. A path means its components: repeated slashes, a
trailing slash, and dots other than a leading one add nothing to it.

## Main definitions

* `pieces`: the text between the slashes, with those pieces marked that are components.
* `components`: the components of a path.
* `fileName?`, `extension?`, `parent?`: the parts of a path.
* `join`: a path seen from a directory.
* `relativeTo?`: a path without the directory that it starts with.
-/

import HclLint.Text.Pieces

namespace HclLint.Text.Path

/-- Whether a path starts with a slash. -/
def isAbsolute (path : String) : Bool := path.toList.head? == some '/'

/-- A stretch of a path, and whether it is a component. -/
structure Piece where
  text : List Char
  isComponent : Bool
  deriving DecidableEq, Repr

/-- A stretch behind a slash: a component unless it is empty or a dot. -/
def Piece.behindSlash (text : List Char) : Piece := ⟨text, !(text.isEmpty || text == ['.'])⟩

/-- The stretches of a path. A leading dot is a component. -/
def pieces (path : String) : List Piece :=
  match split '/' path.toList with
  | [] => []
  | first :: rest => ⟨first, !first.isEmpty⟩ :: rest.map Piece.behindSlash

/-- The components of a path. The slash of an absolute path is one by itself. -/
def components (path : String) : List (List Char) :=
  (if isAbsolute path then [['/']] else []) ++
    ((pieces path).filter (·.isComponent)).map (·.text)

/-- A name among the components, neither a dot nor two. -/
def isName (component : List Char) : Bool :=
  !(component == ['/'] || component == ['.'] || component == ['.', '.'])

/-- The name that a path ends with, none where it ends otherwise. -/
def fileName? (path : String) : Option String :=
  match (components path).getLast? with
  | some last => if isName last then some (String.ofList last) else none
  | none => none

/-- What follows the last dot of the file name, unless that dot starts the name. -/
def extension? (path : String) : Option String :=
  (fileName? path).bind fun name =>
    let reversed := name.toList.reverse
    let stem := reversed.dropWhile (· != '.')
    if stem.length ≤ 1 then none
    else some (String.ofList (reversed.takeWhile (· != '.')).reverse)

/-- Drops what adds nothing at the end of a path. -/
def trimEnd (ps : List Piece) : List Piece := (ps.reverse.dropWhile (!·.isComponent)).reverse

/-- The text of a part of a path. -/
def textOf (ps : List Piece) : String := String.ofList (List.intercalate ['/'] (ps.map (·.text)))

/-- The path without its last component, none where there is none to take away. What stands
before it is kept as it was written. -/
def parent? (path : String) : Option String :=
  let ps := trimEnd (pieces path)
  if ps.isEmpty then none
  else
    let kept := trimEnd ps.dropLast
    some (if kept.isEmpty && isAbsolute path then "/" else textOf kept)

/-- A path seen from a directory: an absolute path stands for itself, and any other is
appended to the directory with a slash in between. -/
def join (directory path : String) : String :=
  if isAbsolute path || directory.isEmpty then path
  else if directory.toList.getLast? == some '/' then directory ++ path
  else directory ++ "/" ++ path

/-- Drops pieces through the component with the given number, counted from one. -/
def dropThrough : Nat → List Piece → List Piece
  | 0, ps => ps
  | _, [] => []
  | n + 1, p :: ps => if p.isComponent then dropThrough n ps else dropThrough (n + 1) ps

/-- The path without the components of a directory, none where it does not start with
them. Without any component to drop the start of the path is kept as it was written. -/
def relativeTo? (directory path : String) : Option String :=
  let dropped := components directory
  if dropped.isPrefixOf (components path) then
    if dropped.isEmpty then
      let kept := trimEnd (pieces path)
      some (if kept.isEmpty && isAbsolute path then "/" else textOf kept)
    else
      -- The slash of an absolute directory is no piece of its own.
      let count := dropped.length - (if isAbsolute directory then 1 else 0)
      some (textOf (trimEnd ((dropThrough count (pieces path)).dropWhile (!·.isComponent))))
  else none

example : parent? "conf/./x.yml" = some "conf" ∧ parent? "/x.yml" = some "/" := by
  decide +kernel
example : extension? ".tf" = none ∧ extension? "a.b.tf/" = some "tf" := by decide +kernel
example : relativeTo? "infra/" "infra//x/./y" = some "x/./y" := by decide +kernel

end HclLint.Text.Path
