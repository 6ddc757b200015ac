/-
# Resources and templates

A resource is a declared object with its attributes; a template is a file with the
resources that it ends up holding. An attribute keeps every place where it was given, of
which there is always a first.
-/

import HclLint.Model.Value

namespace HclLint.Model

open HclLint.Text HclLint.Hcl

/-- One place where an attribute was given. -/
structure Occurrence where
  position : Position
  value : Value
  deriving Inhabited

/-- The places where an attribute was given, in source order. -/
structure Attribute where
  first : Occurrence
  more : List Occurrence
  deriving Inhabited

/-- All occurrences of an attribute. -/
def Attribute.occurrences (a : Attribute) : List Occurrence := a.first :: a.more

/-- A resource's type and identifier. -/
structure ResourceKey where
  type : String
  id : String
  deriving DecidableEq, Repr, Inhabited

/-- A declared object: where it stands and what it consists of. -/
structure Resource where
  file : String
  key : ResourceKey
  position : Position
  attributes : Entries Attribute
  deriving Inhabited

namespace Resource

/-- The attribute with a name. -/
def attribute? (r : Resource) (name : String) : Option Attribute := r.attributes.get? name

/-- The token of an attribute that is first given as a scalar. -/
def token? (r : Resource) (name : String) : Option Token :=
  (r.attribute? name).bind (·.first.value.scalar?)

/-- The tokens of an attribute that is first given as a list of scalars. -/
def listTokens? (r : Resource) (name : String) : Option (List Token) :=
  (r.attribute? name).bind fun a => a.first.value.list?.bind (·.mapM Value.scalar?)

/-- The entries of an attribute that is first given as a map. -/
def map? (r : Resource) (name : String) : Option (Entries Value) :=
  (r.attribute? name).bind (·.first.value.map?)

/-- Puts each attribute of another resource in the place of the one with its name, or
behind the others. -/
def overriddenBy (r other : Resource) : Resource :=
  { r with
    attributes := other.attributes.foldl (fun attributes (name, a) => attributes.put name a)
      r.attributes }

end Resource

/-- Adds an occurrence to the attribute with a name, or the attribute itself. -/
def addOccurrence (name : String) (occurrence : Occurrence) (attributes : Entries Attribute) :
    Entries Attribute :=
  match attributes.get? name with
  | some a => attributes.put name { a with more := a.more ++ [occurrence] }
  | none => attributes.put name ⟨occurrence, []⟩

/-- The attributes that a block's structures give, each structure being one occurrence. -/
def attributesOf (source : Source) (body : Body) : Entries Attribute :=
  body.foldl (fun attributes item =>
    addOccurrence item.name ⟨source.positionAt item.start, Value.ofItem source item⟩ attributes) []

/-- A file and the resources it holds. -/
structure Template where
  file : String
  resources : List Resource
  deriving Inhabited

namespace Template

/-- The first resource with a key. -/
def find? (t : Template) (key : ResourceKey) : Option Resource :=
  t.resources.find? (·.key == key)

/-- The resources of a type, in order. -/
def ofType (t : Template) (type : String) : List Resource :=
  t.resources.filter (·.key.type == type)

end Template

end HclLint.Model
