/-
# Override files

A file named `override.tf`, or `<stem>_override.tf`, changes what the other files declare.
Each resource that it declares replaces the attributes of the first resource with the same
key, one attribute at a time. A resource without such a counterpart is added: to the
template of `<stem>.tf` if there is one, and else to a template of the override file's own.

## Main definitions

* `FileRole.ofName`: whether a file overrides, and which file it belongs to.
* `applyOverride`: the templates after one overriding resource.
* `Precedence.arrange`: the order in which override files are applied.
-/

import HclLint.Text.Path
import HclLint.Log
import HclLint.Model.Declaration

namespace HclLint.Model

open HclLint.Text

/-- What a file's name makes it. -/
inductive FileRole where
  | base
  /-- An override file, with the file that it belongs to by its name. -/
  | override (home : Option String)
  deriving DecidableEq, Repr

/-- A text without an ending that it has. -/
def withoutEnding? (ending text : String) : Option String :=
  if ending.toList.isSuffixOf text.toList then
    some (String.ofList (text.toList.take (text.toList.length - ending.toList.length)))
  else none

namespace FileRole

/-- The role of a file. One whose last component is `override.tf` overrides without
belonging to a file; one whose name ends in `_override.tf` behind a stem belongs to the
file of that stem. -/
def ofName (name : String) : FileRole :=
  if (Path.fileName? name).getD name = "override.tf" then .override none
  else
    match withoutEnding? "_override.tf" name with
    | some stem =>
      if stem.isEmpty || stem.toList.getLast? == some '/' then .base
      else .override (some (stem ++ ".tf"))
    | none => .base

/-- Whether a file overrides others. -/
def isOverride : FileRole → Bool
  | base => false
  | override _ => true

end FileRole

/-- In which order override files are applied; the later one wins. -/
inductive Precedence where
  /-- In the order of their names. -/
  | lexical
  /-- First those that belong to no file, then the others. -/
  | specificLast
  deriving DecidableEq, Repr, Inhabited

/-- The spelling of a precedence. -/
def Precedence.ofName? : String → Option Precedence
  | "lexical" => some .lexical
  | "specific_last" => some .specificLast
  | _ => none

/-- An override file's declarations and the file that it belongs to. -/
structure Overrides where
  home : Option String
  declarations : Declarations
  deriving Inhabited

/-- Override files in the order in which they are applied. -/
def Precedence.arrange : Precedence → List Overrides → List Overrides
  | .lexical, all => all
  | .specificLast, all => all.filter (·.home.isNone) ++ all.filter (·.home.isSome)

/-- Changes the first member that satisfies a test. -/
def updateFirst {α : Type} (test : α → Bool) (change : α → α) : List α → List α
  | [] => []
  | a :: rest => if test a then change a :: rest else a :: updateFirst test change rest

/-- Whether some template holds a resource with a key. -/
def isDeclared (templates : List Template) (key : ResourceKey) : Bool :=
  templates.any fun t => t.resources.any (·.key == key)

/-- The templates with the first resource of a key overridden. -/
def overrideIn (templates : List Template) (r : Resource) : List Template :=
  updateFirst (fun t => t.resources.any (·.key == r.key))
    (fun t => { t with
      resources := updateFirst (·.key == r.key) (·.overriddenBy r) t.resources })
    templates

/-- The template that takes a resource without a counterpart. -/
def homeOf (templates : List Template) (home : Option String) (file : String) : String :=
  match home with
  | some name => if templates.any (·.file == name) then name else file
  | none => file

/-- The templates with a resource added to the one of a name, which is made if need be. -/
def addTo (templates : List Template) (name : String) (r : Resource) : List Template :=
  if templates.any (·.file == name) then
    updateFirst (·.file == name) (fun t => { t with resources := t.resources ++ [r] }) templates
  else templates ++ [⟨name, [r]⟩]

/-- The templates after an overriding resource of a file. -/
def applyOverride (home : Option String) (file : String) (templates : List Template)
    (r : Resource) : List Template :=
  if isDeclared templates r.key then overrideIn templates r
  else addTo templates (homeOf templates home file) r

/-- The note on an overriding resource of a file. -/
def overrideEntry (home : Option String) (file : String) (templates : List Template)
    (r : Resource) : LogEntry :=
  let name := s!"{r.key.type}.{r.key.id}"
  ⟨.debug, .merge,
    if isDeclared templates r.key then s!"{file}: overriding {name}"
    else s!"{file}: adding {name} to {homeOf templates home file}"⟩

/-- The templates after all resources of an override file. -/
def applyOverrides (templates : List Template) (o : Overrides) : List Template :=
  o.declarations.resources.foldl (applyOverride o.home o.declarations.file) templates

/-- The notes on the resources of an override file. -/
def overridesLog (home : Option String) (file : String) :
    List Template → List Resource → Log
  | _, [] => []
  | templates, r :: rest =>
    overrideEntry home file templates r ::
      overridesLog home file (applyOverride home file templates r) rest

/-- The notes on some override files. -/
def mergeLog : List Template → List Overrides → Log
  | _, [] => []
  | templates, o :: rest =>
    overridesLog o.home o.declarations.file templates o.declarations.resources ++
      mergeLog (applyOverrides templates o) rest

end HclLint.Model
