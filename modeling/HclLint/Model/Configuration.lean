/-
# Configurations

The merged templates and the variables of a set of source files.

## Main definitions

* `Configuration.load`: the configuration of a set of files, refused at the first file with
  a fault.
* `Configuration.loadLog`: the notes on the merge.
-/

import HclLint.Model.SourceSet
import HclLint.Model.Merge
import HclLint.Eval.Variables

namespace HclLint.Model

open HclLint.Text HclLint.Eval

/-- Templates after the merge, and variables. -/
structure Configuration where
  templates : List Template
  table : VariableTable
  deriving Inhabited

/-- What the files of a set declare: that of the base files, then that of the override
files, each in the order of their names. -/
structure DeclaredFiles where
  bases : List Declarations
  overrides : List Overrides
  deriving Inhabited

namespace DeclaredFiles

/-- Sorts declarations by the roles of their files. -/
def ofDeclarations (all : List Declarations) : DeclaredFiles where
  bases := all.filter fun d => FileRole.ofName d.file == .base
  overrides := all.filterMap fun d =>
    match FileRole.ofName d.file with
    | .base => none
    | .override home => some ⟨home, d⟩

/-- The templates of the base files. -/
def templates (files : DeclaredFiles) : List Template :=
  files.bases.map fun d => ⟨d.file, d.resources⟩

/-- The variables in the order in which they are declared, override files coming after base
files. -/
def vars (precedence : Precedence) (files : DeclaredFiles) : List Variable :=
  files.bases.flatMap (·.vars) ++
    (precedence.arrange files.overrides).flatMap (·.declarations.vars)

end DeclaredFiles

/-- The declarations of the files of a set. -/
def declaredFiles (set : SourceSet) : Except SourceError DeclaredFiles := do
  return .ofDeclarations (← set.files.mapM declarationsOf)

namespace Configuration

/-- The configuration of what some files declare. -/
def ofDeclared (precedence : Precedence) (files : DeclaredFiles) : Configuration where
  templates := (precedence.arrange files.overrides).foldl applyOverrides files.templates
  table := (files.vars precedence).foldl VariableTable.declare .empty

/-- The configuration of a set of files. -/
def load (precedence : Precedence) (set : SourceSet) : Except SourceError Configuration := do
  return ofDeclared precedence (← declaredFiles set)

/-- The notes on the merge of a set of files. -/
def loadLog (precedence : Precedence) (set : SourceSet) : Log :=
  match declaredFiles set with
  | .error _ => []
  | .ok files => mergeLog files.templates (precedence.arrange files.overrides)

/-- The first resource with a key. -/
def find? (c : Configuration) (key : ResourceKey) : Option Resource :=
  c.templates.findSome? (·.find? key)

end Configuration

end HclLint.Model
