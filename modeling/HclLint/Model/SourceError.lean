/-
# Faults of source files

Why a file cannot be used, and where in it the fault lies.
-/

import HclLint.Hcl.Reader
import HclLint.Text.Source

namespace HclLint.Model

open HclLint.Text HclLint.Hcl

/-- What is wrong with a file. -/
inductive Fault where
  /-- The file is not a body. -/
  | grammar (complaint : Complaint)
  /-- A resource block does not have two labels. -/
  | resourceLabels (found : Nat)
  /-- A variable block does not have one label. -/
  | variableLabels (found : Nat)
  /-- The file declares a resource twice. -/
  | duplicateResource (type id : String)
  /-- A file of assignments holds a block. -/
  | blockAmongAssignments (kind : String)
  deriving DecidableEq, Repr

/-- The wording of a fault. -/
def Fault.message : Fault → String
  | .grammar complaint => complaint.message
  | .resourceLabels found => s!"resource block requires 2 labels, found {found}"
  | .variableLabels found => s!"variable block requires 1 label, found {found}"
  | .duplicateResource type id => s!"duplicate resource \"{type}\" \"{id}\""
  | .blockAmongAssignments kind => s!"unexpected block \"{kind}\" in variable definitions"

/-- A fault and where it lies. -/
structure SourceError where
  file : String
  line : Nat
  column : Nat
  fault : Fault
  deriving DecidableEq, Repr

namespace SourceError

/-- The written form, `file:line:column: fault`. -/
def message (e : SourceError) : String :=
  s!"{e.file}:{e.line}:{e.column}: {e.fault.message}"

/-- A fault at a byte offset of a file. -/
def atOffset (source : Source) (offset : Nat) (fault : Fault) : SourceError :=
  let position := source.positionAt offset
  ⟨source.name, position.line, position.column, fault⟩

/-- The fault of a file that is not a body. -/
def ofRefusal (source : Source) (refusal : Refusal) : SourceError :=
  let (line, column) := blamedAt source.text refusal.place
  ⟨source.name, line, column, .grammar refusal.complaint⟩

end SourceError

/-- The body of a file. -/
def bodyOf (source : Source) : Except SourceError Body :=
  (readBody source.text).mapError (SourceError.ofRefusal source)

end HclLint.Model
