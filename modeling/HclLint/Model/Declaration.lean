/-
# Declarations of a file

The resources and variables that a source file declares, and the assignments of a file of
variable values.

## Main definitions

* `declarationsOf`: what a source file declares.
* `assignmentsOf`: the values that a file assigns to variables.
-/

import HclLint.Model.Resource
import HclLint.Model.SourceError

namespace HclLint.Model

open HclLint.Text HclLint.Hcl

/-- A declared variable. -/
structure Variable where
  name : String
  position : Position
  default? : Option Value
  deriving Inhabited

/-- What a file declares, in source order. -/
structure Declarations where
  file : String
  resources : List Resource
  vars : List Variable
  deriving Inhabited

/-- The resource that a block declares. It needs two labels, the type and the identifier. -/
def resourceOf (source : Source) (start : Nat) (labels : List String) (body : Body) :
    Except SourceError Resource :=
  match labels with
  | [type, id] =>
    .ok ⟨source.name, ⟨type, id⟩, source.positionAt start, attributesOf source body⟩
  | _ => .error (.atOffset source start (.resourceLabels labels.length))

/-- The value of a body's first attribute with a name. -/
def attributeValue? (source : Source) (name : String) : Body → Option Value
  | [] => none
  | .attribute key e :: rest =>
    if key = name then some (Value.ofExpr source e) else attributeValue? source name rest
  | .block .. :: rest => attributeValue? source name rest

/-- The variable that a block declares. It needs one label, the name. -/
def variableOf (source : Source) (start : Nat) (labels : List String) (body : Body) :
    Except SourceError Variable :=
  match labels with
  | [name] => .ok ⟨name, source.positionAt start, attributeValue? source "default" body⟩
  | _ => .error (.atOffset source start (.variableLabels labels.length))

/-- Adds what a structure of a file declares to what was declared before it. Only blocks of
the kinds `resource` and `variable` declare anything, and no resource twice. -/
def declare (source : Source) (before : Declarations) : Item → Except SourceError Declarations
  | .attribute .. => .ok before
  | .block start kind labels body =>
    if kind = "resource" then do
      let resource ← resourceOf source start labels body
      if before.resources.any (·.key == resource.key) then
        .error (.atOffset source start (.duplicateResource resource.key.type resource.key.id))
      else return { before with resources := before.resources ++ [resource] }
    else if kind = "variable" then do
      let declared ← variableOf source start labels body
      return { before with vars := before.vars ++ [declared] }
    else .ok before

/-- What a source file declares. -/
def declarationsOf (source : Source) : Except SourceError Declarations := do
  (← bodyOf source).foldlM (declare source) ⟨source.name, [], []⟩

/-- The assignment that a structure of a file makes. -/
def assignmentOf (source : Source) : Item → Except SourceError (String × Value)
  | .attribute key e => .ok (key, Value.ofExpr source e)
  | .block start kind _ _ => .error (.atOffset source start (.blockAmongAssignments kind))

/-- The values that a file assigns to variables, in source order. -/
def assignmentsOf (source : Source) : Except SourceError (List (String × Value)) := do
  (← bodyOf source).mapM (assignmentOf source)

end HclLint.Model
